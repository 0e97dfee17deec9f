import ExecutionLayer.Proofs.Evm.Conservation
import ExecutionLayer.Proofs.Transaction.Funds
import Mathlib.Data.BitVec

/-! # Conservation of ether by transactions

A transaction takes the fee in advance, runs its message, and pays back what is left. The sum of all
balances loses the base fee of the gas used, the fee for blobs, and what is lost with accounts that
are destroyed.
-/
namespace ExecutionLayer
open Evm

namespace Evm
variable {env : Environment} {message : Message} {frame : Frame} {outcome : Outcome} {w w' : World}

theorem conclude_ne (f : Fault) : conclude message frame env w ≠ .error (.imbalance f) w' := by
  intro h
  rcases conclude_cases message frame env w with ⟨g, he⟩ | ⟨_, _, he, -⟩
  · rw [he] at h
    cases h
  · rw [he] at h
    cases h

theorem runCall_of_taken (h : message.isTaken w.state = true) :
    runCall message env w = .ok (.collision message) w := by
  have hget : (get : WorldOp World) env w = .ok w w := rfl
  unfold runCall
  rw [bind_of_ok hget, if_pos h]
  rfl

theorem runCall_of_free (h : message.isTaken w.state = false) :
    runCall message env w = (launch runMessage message >>= fun frame => do
      conclude message (frame.touchTarget (← get).state message.target)) env w := by
  have hget : (get : WorldOp World) env w = .ok w w := rfl
  unfold runCall
  rw [bind_of_ok hget]
  simp only [h, Bool.false_eq_true, ↓reduceIte]

theorem runCall_imbalance_iff : (∃ f w', runCall message env w = .error (.imbalance f) w') ↔
    message.isTaken w.state = false ∧
      ∃ f w', launch runMessage message env w = .error (.imbalance f) w' := by
  cases ht : message.isTaken w.state with
  | true =>
    rw [runCall_of_taken ht]
    simp
  | false =>
    rw [runCall_of_free ht]
    constructor
    · rintro ⟨f, w', h⟩
      rcases of_bind_error h with h₁ | ⟨frame, w₁, _, h₁⟩
      · exact ⟨rfl, f, w', h₁⟩
      · rcases of_bind_error h₁ with h₂ | ⟨_, w₂, _, h₂⟩
        · cases h₂
        · exact absurd h₂ (conclude_ne f)
    · rintro ⟨-, f, w', h⟩
      exact ⟨f, w', bind_of_error h _⟩

theorem runCall_conserves (hd : message.depth ≤ depthLimit) (hs : Solvent env message w)
    (h : runCall message env w = .ok outcome w') :
    w'.state.total ≤ w.state.total ∧
      ((∀ m, message.isTaken w.state = false → Succeeds env message w → Opens env message w m →
        Intact env m) →
      w'.state.total = w.state.total ∧ outcome.accountsToDelete = ∅) := by
  cases ht : message.isTaken w.state with
  | true =>
    rw [runCall_of_taken ht] at h
    cases h
    exact ⟨le_rfl, fun _ => ⟨rfl, rfl⟩⟩
  | false =>
    rw [runCall_of_free ht] at h
    obtain ⟨frame, w₁, hl, h₁⟩ := of_bind_ok h
    obtain ⟨_, _, hget, h₂⟩ := of_bind_ok h₁
    cases hget
    have hmarks := (Outcome.of_ofFrame (of_conclude_ok h₂).1).2
    rw [Frame.error_touchTarget, Frame.accountsToDelete_touchTarget] at hmarks
    have hc := launch_conserving hd hs
    rw [hl] at hc
    rw [(of_conclude_ok h₂).2, hmarks]
    refine ⟨hc.total_le, fun hi => ?_⟩
    cases he : frame.error with
    | some e => exact ⟨hc.total_eq_of_error (by simp [he]), rfl⟩
    | none => exact hc.total_eq he fun m ho => hi m rfl ⟨frame, w₁, hl, he⟩ ho

end Evm

namespace Transaction
variable {env : Environment} {tx : Transaction} {s s' : State} {outcome : Outcome}

theorem total_clearUp_le (env : Environment) (outcome : Outcome) (s : State) :
    (clearUp env outcome s).total ≤ s.total := by
  have h := State.total_foldl_destroyAccount_le outcome.accountsToDelete.toList s
  unfold clearUp
  dsimp only
  split
  · rw [State.total_destroyEmpty]
    exact h
  · exact h

theorem total_clearUp (h : outcome.accountsToDelete = ∅) (s : State) :
    (clearUp env outcome s).total = s.total := by
  unfold clearUp
  rw [h]
  dsimp only
  split
  · rw [State.total_destroyEmpty]
    rfl
  · rfl

theorem total_setCoinbase {x : Word} (h : s.balance env.coinbase ≤ x.toNat) :
    (setCoinbase env x s).total + s.balance env.coinbase = s.total + x.toNat := by
  unfold setCoinbase
  split
  · exact State.total_setBalance s env.coinbase x
  · next hz =>
    have hx : x.toNat = 0 := by
      simp only [ne_eq, Bool.or_eq_true, decide_eq_true_eq, not_or, not_not] at hz
      rw [hz.1]
      rfl
    split
    · have ht := State.total_destroyAccount s env.coinbase
      omega
    · omega

theorem payCoinbase_of_total_lt {fee : Nat} (h : s.total + fee < Word.limit) :
    ∃ t, payCoinbase env fee s = .ok t ∧ t.total = s.total + fee := by
  have hle : s.balance env.coinbase ≤ s.total := State.balance_le_total
  have hlt : s.balance env.coinbase + fee < Word.limit := by omega
  have hword : Word.ofNat? ((s.account env.coinbase).balance.toNat + fee) =
      .ok (.ofNat 256 (s.balance env.coinbase + fee)) := if_pos hlt
  have hx := State.toNat_ofNat_of_lt hlt
  have ht : (setCoinbase env (.ofNat 256 (s.balance env.coinbase + fee)) s).total +
      s.balance env.coinbase = s.total + (s.balance env.coinbase + fee) := by
    rw [total_setCoinbase (by omega), hx]
  refine ⟨setCoinbase env (.ofNat 256 (s.balance env.coinbase + fee)) s, ?_, by omega⟩
  unfold payCoinbase
  rw [hword]
  rfl

theorem shares_eq (hleft : outcome.gasLeft ≤ tx.gas) (hbase : baseFee env ≤ env.gasPrice) :
    (outcome.gasLeft + tx.gasRefund env outcome) * env.gasPrice +
      tx.gasUsed env outcome * (env.gasPrice - baseFee env) +
      tx.gasUsed env outcome * baseFee env = tx.gas * env.gasPrice := by
  have hrefund : tx.gasRefund env outcome ≤ tx.gas - outcome.gasLeft :=
    (Nat.min_le_left _ _).trans (Nat.div_le_self _ _)
  have hgas : outcome.gasLeft + tx.gasRefund env outcome + tx.gasUsed env outcome = tx.gas := by
    unfold gasUsed
    omega
  rw [Nat.add_assoc, ← Nat.mul_add, Nat.sub_add_cancel hbase, ← Nat.add_mul, hgas]

theorem settle_total (hleft : outcome.gasLeft ≤ tx.gas) (hbase : baseFee env ≤ env.gasPrice)
    (hT : s.total + tx.gas * env.gasPrice < Word.limit) :
    ∃ s', tx.settle env outcome s = .ok (tx.gasUsed env outcome) s' ∧
      s'.total + tx.gasUsed env outcome * baseFee env ≤ s.total + tx.gas * env.gasPrice ∧
      (outcome.accountsToDelete = ∅ →
        s'.total + tx.gasUsed env outcome * baseFee env = s.total + tx.gas * env.gasPrice) := by
  have hshares := shares_eq hleft hbase
  obtain ⟨s₁, hs₁, -, ht₁⟩ := State.addBalance_of_total_lt (s := s) (a := env.origin)
    (n := (outcome.gasLeft + tx.gasRefund env outcome) * env.gasPrice) (by omega)
  have hcoinbase : ∃ s₂,
      payCoinbase env (tx.gasUsed env outcome * (env.gasPrice - baseFee env)) s₁ = .ok s₂ ∧
      s₂.total = s₁.total + tx.gasUsed env outcome * (env.gasPrice - baseFee env) :=
    payCoinbase_of_total_lt (by omega)
  obtain ⟨s₂, hs₂, ht₂⟩ := hcoinbase
  have h₁ : BlockOp.changeBalances (·.addBalance env.origin
      ((outcome.gasLeft + tx.gasRefund env outcome) * env.gasPrice)) s = .ok () s₁ := by
    simp only [BlockOp.changeBalances, hs₁]
  have h₂ : BlockOp.changeBalances
      (payCoinbase env (tx.gasUsed env outcome * (env.gasPrice - baseFee env))) s₁ = .ok () s₂ := by
    simp only [BlockOp.changeBalances, hs₂]
  refine ⟨clearUp env outcome s₂, ?_, ?_, fun hempty => ?_⟩
  · unfold settle
    rw [if_neg (Nat.not_lt_of_le hleft), if_neg (Nat.not_lt_of_le hbase)]
    exact (seq_of_ok h₁ _).trans ((seq_of_ok h₂ _).trans rfl)
  · have hclear := total_clearUp_le env outcome s₂
    omega
  · have hclear : (clearUp env outcome s₂).total = s₂.total := total_clearUp hempty s₂
    omega

/-- A transaction comes to a machine through frames of which `K` holds. -/
def Visits (env : Environment) (tx : Transaction) (s : State) (K : Message → World → Prop)
    (m : Machine) : Prop :=
  ∃ message s' m₀, tx.prepare env s = .ok message s' ∧ message.isTaken s' = false ∧
    K message { state := s' } ∧ Opens env message { state := s' } m₀ ∧ Reaches env K m₀ m

theorem solvent_of_ready {message : Message} (hT : s.total < Word.limit) (ha : Affords env tx s)
    (hr : Ready env tx s message s') :
    PaidFor env tx s s' ∧ Solvent env message { state := s' } := by
  obtain ⟨s₁, hp, hpaid⟩ := payInAdvance_of_affords ha
  have hs : s₁ = s' := by
    have h := hr.paid
    rw [hp] at h
    cases h
    rfl
  rw [hs] at hpaid
  have htotal := hpaid.total
  refine ⟨hpaid, ?_, fun _ => ?_, rfl⟩
  · change s'.total < Word.limit
    omega
  · rw [hr.caller, hr.value]
    exact hpaid.value

theorem runMachine_imbalance_iff {α : Type} {op : WorldOp α} :
    (∃ f s', BlockOp.runMachine env op s = .error (.imbalance f) s') ↔
      ∃ f w, op env { state := s } = .error (.imbalance f) w := by
  unfold BlockOp.runMachine
  cases op env { state := s } with
  | ok a w => simp
  | error e w => simp [Rejection.imbalance]

structure Run (env : Environment) (tx : Transaction) (s : State) (message : Message)
    (s₁ : State) (outcome : Outcome) (s₂ : State) : Prop where
  paid : PaidFor env tx s s₁
  gasLeft_le : outcome.gasLeft ≤ tx.gas
  total_le : s₂.total ≤ s₁.total
  total_eq : (∀ m, tx.Visits env s (Succeeds env) m → ¬Destroys env m) →
    s₂.total = s₁.total ∧ outcome.accountsToDelete = ∅

theorem run_of_ok {message : Message} {s₁ s₂ : State} (hT : s.total < Word.limit)
    (ha : Affords env tx s) (hp : tx.prepare env s = .ok message s₁)
    (hm : BlockOp.runMachine env (runCall message) s₁ = .ok outcome s₂) :
    Run env tx s message s₁ outcome s₂ := by
  have hready := ready_of_prepare hp
  obtain ⟨hpaid, hs⟩ := solvent_of_ready hT ha hready
  have hd : message.depth ≤ depthLimit := by
    rw [hready.depth]
    exact Nat.zero_le _
  obtain ⟨w, hc, rfl⟩ := of_runMachine_ok hm
  obtain ⟨hle, heq⟩ := runCall_conserves hd hs hc
  refine ⟨hpaid, (runCall_gasLeft_le hc).trans hready.gas, hle, fun hi => heq ?_⟩
  intro m ht hk ho m' hr
  exact hi m' ⟨message, s₁, m, hp, ht, hk, ho, hr⟩

theorem Run.total_lt {message : Message} {s₁ s₂ : State} (hT : s.total < Word.limit)
    (h : Run env tx s message s₁ outcome s₂) : s₂.total + tx.gas * env.gasPrice < Word.limit := by
  have hpaid := h.paid.total
  have hle := h.total_le
  omega

/-- A transaction that has passed the checks ends in an imbalance exactly where it comes to an
account that is destroyed onto itself. -/
theorem process_imbalance_iff (hT : s.total < Word.limit)
    (ha : tx.checkLate env s = .ok () s → Affords env tx s) :
    (∃ f s', tx.process env s = .error (.imbalance f) s') ↔
      ∃ m, tx.Visits env s (fun _ _ => True) m ∧ DestroysOntoItself env m := by
  have hiff {message : Message} {s₁ : State} (hp : tx.prepare env s = .ok message s₁) :
      (∃ f s', BlockOp.runMachine env (runCall message) s₁ = .error (.imbalance f) s') ↔
        message.isTaken s₁ = false ∧ ∃ m m', Opens env message { state := s₁ } m ∧
          Reaches env (fun _ _ => True) m m' ∧ DestroysOntoItself env m' := by
    have hready := ready_of_prepare hp
    have hd : message.depth ≤ depthLimit := by
      rw [hready.depth]
      exact Nat.zero_le _
    have hs := (solvent_of_ready hT (ha hready.checked) hready).2
    rw [runMachine_imbalance_iff, runCall_imbalance_iff, launch_imbalance_iff hd hs]
  constructor
  · rintro ⟨f, s', h⟩
    rcases of_seq_error h with hp | ⟨message, s₁, hp, h₁⟩
    · exact absurd hp (prepare_ne ha f)
    rcases of_seq_error h₁ with hm | ⟨outcome, s₂, hm, h₂⟩
    · obtain ⟨ht, m, m', ho, hr, hdest⟩ := (hiff hp).mp ⟨f, s', hm⟩
      exact ⟨m', ⟨message, s₁, m, hp, ht, trivial, ho, hr⟩, hdest⟩
    · -- After the message everything can be paid.
      have haff := ha (ready_of_prepare hp).checked
      have hrun := run_of_ok hT haff hp hm
      obtain ⟨s₃, hset, -⟩ := settle_total hrun.gasLeft_le haff.baseFee_le (hrun.total_lt hT)
      rw [seq_of_ok hset] at h₂
      cases h₂
  · rintro ⟨m', ⟨message, s₁, m, hp, ht, -, ho, hr⟩, hdest⟩
    obtain ⟨f, s', hm⟩ := (hiff hp).mpr ⟨ht, m, m', ho, hr, hdest⟩
    refine ⟨f, s', ?_⟩
    unfold process
    rw [seq_of_ok hp, seq_of_error hm]

theorem process_total {result : Result} (hT : s.total < Word.limit)
    (ha : tx.checkLate env s = .ok () s → Affords env tx s) (h : tx.process env s = .ok result s') :
    s'.total + result.gasUsed * baseFee env + tx.blobDataFee env ≤ s.total ∧
      ((∀ m, tx.Visits env s (Succeeds env) m → ¬Destroys env m) →
        s'.total + result.gasUsed * baseFee env + tx.blobDataFee env = s.total) := by
  obtain ⟨message, s₁, hp, h₁⟩ := of_seq_ok h
  obtain ⟨outcome, s₂, hm, h₂⟩ := of_seq_ok h₁
  have haff := ha (ready_of_prepare hp).checked
  have hrun := run_of_ok hT haff hp hm
  obtain ⟨s₃, hset, hle, heq⟩ := settle_total hrun.gasLeft_le haff.baseFee_le (hrun.total_lt hT)
  rw [seq_of_ok hset] at h₂
  cases h₂
  have hpaid := hrun.paid.total
  have hrunle := hrun.total_le
  refine ⟨?_, fun hi => ?_⟩
  · dsimp only
    omega
  · obtain ⟨hruneq, hempty⟩ := hrun.total_eq hi
    have hseteq := heq hempty
    dsimp only
    omega

theorem execute_of_approve {gas : Nat} {approved : Approved}
    (h : tx.approve env s gas = .ok approved) : tx.execute env gas s =
      (tx.process (approved.environment env) >>= fun result => pure (approved, result)) s := by
  have hget : (get : BlockOp State) s = .ok s s := rfl
  have ha : BlockOp.ofExcept (tx.approve env s gas) s = .ok approved s := by
    rw [h]
    rfl
  unfold execute
  rw [seq_of_ok hget, seq_of_ok ha]

theorem execute_of_refuse {gas : Nat} {e : Rejection} (h : tx.approve env s gas = .error e) :
    tx.execute env gas s = .error e s := by
  have hget : (get : BlockOp State) s = .ok s s := rfl
  have ha : (BlockOp.ofExcept (tx.approve env s gas) : BlockOp Approved) s = .error e s := by
    rw [h]
    rfl
  unfold execute
  rw [seq_of_ok hget, seq_of_error ha]

/-- If the sum of all balances is a word, a transaction ends in an imbalance exactly if it comes to
an account that is destroyed onto itself before Cancun with half of the range of words or more. Else
the sum loses at least the base fee and the fee for blobs, and just that if no account is destroyed
in a frame that is kept. -/
theorem ether_conserved (env : Environment) (gas : Nat) (tx : Transaction) (s : State)
    (hT : s.total < Word.limit) :
    ((∃ f s', tx.execute env gas s = .error (.imbalance f) s') ↔
      ∃ approved m, tx.approve env s gas = .ok approved ∧
        tx.Visits (approved.environment env) s (fun _ _ => True) m ∧
        DestroysOntoItself (approved.environment env) m) ∧
    ∀ approved result s', tx.execute env gas s = .ok (approved, result) s' →
      s'.total + result.gasUsed * baseFee env + tx.blobDataFee env ≤ s.total ∧
      ((∀ m, tx.Visits (approved.environment env) s (Succeeds (approved.environment env)) m →
          ¬Destroys (approved.environment env) m) →
        s'.total + result.gasUsed * baseFee env + tx.blobDataFee env = s.total) := by
  cases ha : tx.approve env s gas with
  | error e =>
    rw [execute_of_refuse ha]
    constructor
    · constructor
      · rintro ⟨f, s', h⟩
        cases h
        exact absurd ha (isCalm_approve gas f)
      · rintro ⟨_, _, h, _⟩
        cases h
    · intro _ _ _ h
      cases h
  | ok approved =>
    have haff := affords_of_checks ha
    rw [execute_of_approve ha]
    constructor
    · constructor
      · rintro ⟨f, s', h⟩
        rcases of_seq_error h with hp | ⟨_, _, _, hp⟩
        · obtain ⟨m, hv, hd⟩ := (process_imbalance_iff hT haff).mp ⟨f, s', hp⟩
          exact ⟨approved, m, rfl, hv, hd⟩
        · cases hp
      · rintro ⟨_, m, he, hv, hd⟩
        cases he
        obtain ⟨f, s', hp⟩ := (process_imbalance_iff hT haff).mpr ⟨m, hv, hd⟩
        exact ⟨f, s', seq_of_error hp _⟩
    · intro approved' result s' h
      obtain ⟨_, _, hp, hr⟩ := of_seq_ok h
      cases hr
      exact process_total hT haff hp

/-- A signed transfer of five to the account `0x900`. -/
def transfer : Transaction where
  nonce := 0
  gas := 100000
  recipient := some 0x900
  value := 5
  data := ByteArray.empty
  kind := .legacy 10 27
  r := 0xaa120300a38f3f1f731a9fd4a85674c7d2fa11ad0051153ce7bbab1697a80ca9
  s := 0x398a12f5ee3c960fb4c6af0be599dbd6c8eaf55764d1fc80a9802b04a6c679e6

def beforeTransfer (code : ByteArray) (balance : Word) : State :=
  let s := State.setBalance {} 0xa94f5374fce5edbc8e2a8697c15331677e6ebf0b (10 ^ 20)
  (s.setCode 0x900 code).setBalance 0x900 balance

/-- In London a transfer to an account without code burns the base fee and nothing else. -/
theorem ether_conserved_transfer :
    let env : Environment := { (default : Environment) with fork := .london, baseFeePerGas := 7 }
    let s := beforeTransfer ByteArray.empty 1
    s.total < Word.limit ∧ ∃ approved result s',
      transfer.execute env 100000 s = .ok (approved, result) s' ∧
        s'.total + result.gasUsed * 7 = s.total := by
  intro env s
  have hT : s.total < Word.limit := by decide +kernel
  have hrun : (match transfer.execute env 100000 s with
      | .ok (approved, _) _ =>
        match transfer.prepare (approved.environment env) s with
        | .ok message _ => decide (message.code.size = 0)
        | .error _ _ => false
      | .error _ _ => false) = true := by decide +kernel
  split at hrun
  · next approved result s' h =>
    refine ⟨hT, approved, result, s', h, ?_⟩
    refine ((ether_conserved env 100000 transfer s hT).2 approved result s' h).2 ?_
    rintro m ⟨message, s₁, m₀, hp, -, -, ho, hr⟩ hd
    -- The only machine is the first one, and it has no instruction to carry out.
    rw [hp] at hrun
    have hsize : message.code.size = 0 := of_decide_eq_true hrun
    have hn : ¬m₀.IsActive := by
      rintro ⟨-, hpc⟩
      have hcode : m₀.frame.code.size = message.code.size := by rw [ho.frame]; rfl
      omega
    cases hr with
    | refl => exact hn hd.active
    | next hs _ => exact hn hs.active
    | enter ha _ _ _ _ => exact hn ha
  · cases hrun

/-- Before Cancun an account that holds half of the range of words cannot be destroyed onto
itself. -/
theorem imbalance_of_destruction_onto_itself :
    let s := beforeTransfer ⟨#[0x30, 0xff]⟩ (2 ^ 255)
    s.total < Word.limit ∧
      ∃ f s', transfer.execute default 100000 s = .error (.imbalance f) s' := by
  intro s
  have hT : s.total < Word.limit := by decide +kernel
  have hrun : errorWith (· == .imbalance .overflow) (transfer.execute default 100000 s) = true := by
    decide +kernel
  obtain ⟨e, s', h, he⟩ := of_errorWith hrun
  exact ⟨hT, .overflow, s', by rw [h, eq_of_beq he]⟩

end Transaction

end ExecutionLayer
