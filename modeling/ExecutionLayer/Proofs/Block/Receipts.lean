import ExecutionLayer.Proofs.Bloom
import ExecutionLayer.Proofs.Chain.Rejected
import ExecutionLayer.Proofs.Transaction.Parts

/-! # The receipts of a block

Receipts record running totals of the gas that transactions are charged. Every transaction is
charged something, since no more than half of what is used is refunded, and no more than the block
has left. The bloom filter of the block joins those of the receipts.
-/
namespace ExecutionLayer
open Evm

namespace Transaction
variable {env : Environment} {tx : Transaction} {s s' : State} {gas : Nat}

theorem baseCost_le_intrinsicCost {fork : Fork} {cost : Nat}
    (h : tx.intrinsicCost fork = .ok cost) : baseCost ≤ cost := by
  obtain ⟨_, _, h⟩ := of_except_ok h
  cases h
  omega

theorem messageGas_add_le (h : tx.messageGas env = .ok gas) : gas + baseCost ≤ tx.gas := by
  obtain ⟨cost, hcost, h⟩ := of_except_ok h
  have hbase := baseCost_le_intrinsicCost hcost
  split at h
  · cases h
  · cases h
    omega

theorem prepare_gas_add_le {message : Message} (h : tx.prepare env s = .ok message s') :
    message.gas + baseCost ≤ tx.gas := by
  obtain ⟨_, s₁, _, h⟩ := of_seq_ok h
  obtain ⟨gas, s₂, hg, h⟩ := of_seq_ok h
  obtain ⟨_, s₃, _, h⟩ := of_seq_ok h
  obtain ⟨r, s₄, hr, h⟩ := of_seq_ok h
  obtain ⟨_, s₅, _, h⟩ := of_seq_ok h
  have hgas := (Request.describes_of_ok (ofFault_eq_ok h).1).gas
  rw [hgas, (request_eq (ofFault_eq_ok hr).1).2.2.1]
  exact messageGas_add_le (ofFault_eq_ok hg).1

theorem gas_of_settle {outcome : Outcome} (h : tx.settle env outcome s = .ok gas s') :
    gas = tx.gasUsed env outcome := by
  unfold settle at h
  split at h
  · cases h
  · dsimp only at h
    split at h
    · cases h
    · obtain ⟨_, _, _, h⟩ := of_seq_ok h
      obtain ⟨_, _, _, h⟩ := of_seq_ok h
      cases h
      rfl

theorem result_of_process {result : Result} (h : tx.process env s = .ok result s') :
    ∃ message s₁ outcome s₂, Steps env tx s message s₁ outcome s₂ s' ∧
      result.gasUsed = tx.gasUsed env outcome ∧ result.logs = outcome.logs := by
  obtain ⟨message, s₁, hp, h⟩ := of_seq_ok h
  obtain ⟨outcome, s₂, hr, h⟩ := of_seq_ok h
  obtain ⟨gas, s₃, hs, h⟩ := of_seq_ok h
  cases h
  exact ⟨message, s₁, outcome, s₂, ⟨hp, hr, gas, hs⟩, gas_of_settle hs, rfl⟩

theorem refundQuotient_ge (fork : Fork) : 2 ≤ refundQuotient fork := by
  unfold refundQuotient
  split <;> decide

theorem gas_of_steps {message : Message} {s₁ s₂ : State} {outcome : Outcome}
    (h : Steps env tx s message s₁ outcome s₂ s') : 0 < tx.gasUsed env outcome ∧
      tx.gasUsed env outcome + tx.gasRefund env outcome + outcome.gasLeft = tx.gas := by
  obtain ⟨w, hrun, -⟩ := of_runMachine_ok h.run
  have hleft := runCall_gasLeft_le hrun
  have hmessage := prepare_gas_add_le h.prepared
  have hbase : baseCost = 21000 := rfl
  have hrefund : tx.gasRefund env outcome ≤ (tx.gas - outcome.gasLeft) / 2 :=
    (Nat.min_le_left _ _).trans (Nat.div_le_div_left (refundQuotient_ge _) (by decide))
  unfold gasUsed
  omega

theorem gas_le_of_approve {approved : Approved} (h : tx.approve env s gas = .ok approved) :
    tx.gas ≤ gas := by
  obtain ⟨_, _, h⟩ := of_except_ok h
  obtain ⟨_, hgas, _⟩ := of_except_ok h
  exact of_decide_eq_true (Rejection.of_check_ok hgas)

theorem execute_gasUsed {approved : Approved} {result : Result}
    (h : tx.execute env gas s = .ok (approved, result) s') :
    0 < result.gasUsed ∧ result.gasUsed ≤ gas := by
  obtain ⟨ha, hp⟩ := of_execute_ok h
  obtain ⟨_, _, _, _, hsteps, hused, -⟩ := result_of_process hp
  obtain ⟨hpos, hsum⟩ := gas_of_steps hsteps
  have hle := gas_le_of_approve ha
  omega

end Transaction

namespace Body
open Transaction (Approved Steps)

/-- A transaction that was run in a block, with what it left and what was recorded of it. -/
structure Execution where
  tx : Transaction
  approved : Approved
  outcome : Outcome
  receipt : Receipt

namespace Execution

def charge (env : Environment) (x : Execution) : Nat :=
  x.tx.gasUsed (x.approved.environment env) x.outcome

def entry (x : Execution) : Bytes := x.receipt.encode x.tx.type?

end Execution

/-- A transaction is approved and runs while the block has the given gas left, and its receipt
records how much is used up then. -/
structure Executes (env : Environment) (gas : Nat) (s : State) (e : Envelope) (x : Execution)
    (s' : State) : Prop where
  decoded : e.transaction env.fork = .ok x.tx
  approved : x.tx.approve env s gas = .ok x.approved
  run : ∃ message s₁ s₂, Steps (x.approved.environment env) x.tx s message s₁ x.outcome s₂ s'
  recorded : ∃ result, x.receipt =
    .make result (env.gasLimit - (gas - x.charge env)) x.outcome.logs

/-- The transactions of a block have run one after the other. -/
inductive Executed (env : Environment) :
    Nat → State → List Envelope → List Execution → Nat → State → Prop
  | nil {gas : Nat} {s : State} : Executed env gas s [] [] gas s
  | cons {gas gas' : Nat} {s s₁ s' : State} {e : Envelope} {es : List Envelope} {x : Execution}
      {xs : List Execution} : Executes env gas s e x s₁ →
      Executed env (gas - x.charge env) s₁ es xs gas' s' →
      Executed env gas s (e :: es) (x :: xs) gas' s'

variable {env : Environment} {gas gas' : Nat} {s s' : State} {es : List Envelope}
  {x : Execution} {xs : List Execution} {p p' : Progress}

theorem Executes.charge_bounds {e : Envelope} (h : Executes env gas s e x s') :
    0 < x.charge env ∧ x.charge env ≤ gas := by
  obtain ⟨_, _, _, hsteps⟩ := h.run
  obtain ⟨hpos, hsum⟩ := Transaction.gas_of_steps hsteps
  have hle := Transaction.gas_le_of_approve h.approved
  have hcharge : x.charge env = x.tx.gasUsed (x.approved.environment env) x.outcome := rfl
  omega

theorem Executes.cumulative {e : Envelope} (h : Executes env gas s e x s') :
    x.receipt.cumulativeGasUsed = env.gasLimit - (gas - x.charge env) := by
  obtain ⟨_, hreceipt⟩ := h.recorded
  rw [hreceipt]
  rfl

theorem Executes.bloom {e : Envelope} (h : Executes env gas s e x s') :
    x.receipt.bloom = Bloom.ofLogs keccak256 x.outcome.logs := by
  obtain ⟨_, hreceipt⟩ := h.recorded
  rw [hreceipt]
  rfl

theorem of_applyTransaction_ok {e : Envelope} (h : applyTransaction env p e s = .ok p' s') :
    ∃ x, Executes env p.gasAvailable s e x s' ∧
      p'.gasAvailable = p.gasAvailable - x.charge env ∧ p'.receipts = p.receipts ++ [x.entry] ∧
      p'.logs = p.logs ++ x.outcome.logs := by
  obtain ⟨tx, s₀, hdecode, h₁⟩ := of_seq_ok h
  obtain ⟨htx, rfl⟩ := Transaction.ofExcept_eq_ok hdecode
  obtain ⟨⟨approved, result⟩, s₁, hexec, h₂⟩ := of_seq_ok h₁
  obtain ⟨ha, hp⟩ := Transaction.of_execute_ok hexec
  obtain ⟨message, t₁, outcome, t₂, hsteps, hused, hlogs⟩ := Transaction.result_of_process hp
  have hle := (Transaction.execute_gasUsed hexec).2
  dsimp only at h₂
  rw [if_neg (Nat.not_lt.mpr hle)] at h₂
  obtain ⟨r, s₂, hr, h₃⟩ := of_seq_ok h₂
  have hread : s₂ = s₁ := by
    unfold receiptResult at hr
    split at hr
    · obtain ⟨_, _, hget, hr⟩ := of_seq_ok hr
      cases hget
      obtain ⟨_, _, hroot, hr⟩ := of_seq_ok hr
      cases hr
      exact (Transaction.ofFault_eq_ok hroot).2
    · cases hr
      rfl
  cases h₃
  subst hread
  refine ⟨⟨tx, approved, outcome, .make r (env.gasLimit - (p.gasAvailable - result.gasUsed))
    result.logs⟩, ⟨htx, ha, ⟨message, t₁, t₂, hsteps⟩, ⟨r, ?_⟩⟩, ?_, rfl, ?_⟩
  · rw [hused, hlogs]
    rfl
  · rw [hused]
    rfl
  · rw [hlogs]

theorem of_foldlM_ok (h : es.foldlM (applyTransaction env) p s = .ok p' s') :
    ∃ xs, Executed env p.gasAvailable s es xs p'.gasAvailable s' ∧
      p'.receipts = p.receipts ++ xs.map Execution.entry ∧
      p'.logs = p.logs ++ xs.flatMap (·.outcome.logs) := by
  induction es generalizing p s with
  | nil =>
    cases h
    exact ⟨[], .nil, (List.append_nil _).symm, (List.append_nil _).symm⟩
  | cons e es ih =>
    rw [List.foldlM_cons] at h
    obtain ⟨p₁, s₁, hstep, hrest⟩ := of_seq_ok h
    obtain ⟨x, hx, hgas, hreceipts, hlogs⟩ := of_applyTransaction_ok hstep
    obtain ⟨xs, hxs, hreceipts', hlogs'⟩ := ih hrest
    rw [hgas] at hxs
    refine ⟨x :: xs, .cons hx hxs, ?_, ?_⟩
    · rw [hreceipts', hreceipts, List.append_assoc]
      rfl
    · rw [hlogs', hlogs, List.append_assoc, List.flatMap_cons]

namespace Executed

theorem sum_charge (h : Executed env gas s es xs gas' s') :
    gas' + (xs.map (Execution.charge env)).sum = gas := by
  induction h with
  | nil => rfl
  | cons hx _ ih =>
    have hbounds := hx.charge_bounds
    rw [List.map_cons, List.sum_cons]
    omega

theorem charge_eq (h : Executed env gas s es xs gas' s') : ∀ x ∈ xs, 0 < x.charge env ∧
    x.charge env + x.tx.gasRefund (x.approved.environment env) x.outcome + x.outcome.gasLeft =
      x.tx.gas := by
  induction h with
  | nil => exact fun _ hx => absurd hx List.not_mem_nil
  | cons hx _ ih =>
    obtain ⟨_, _, _, hsteps⟩ := hx.run
    exact List.forall_mem_cons.mpr ⟨Transaction.gas_of_steps hsteps, ih⟩

theorem cumulative (h : Executed env gas s es xs gas' s') (hgas : gas ≤ env.gasLimit) :
    ∀ i (hi : i < xs.length), xs[i].receipt.cumulativeGasUsed =
      env.gasLimit - gas + ((xs.take (i + 1)).map (Execution.charge env)).sum := by
  induction h with
  | nil => exact fun i hi => absurd hi (Nat.not_lt_zero i)
  | cons hx _ ih =>
    have hbounds := hx.charge_bounds
    intro i hi
    cases i with
    | zero =>
      rw [List.getElem_cons_zero, hx.cumulative, List.take_succ_cons, List.take_zero, List.map_cons,
        List.sum_cons, List.map_nil, List.sum_nil]
      omega
    | succ i =>
      have hrest := ih (by omega) i (Nat.lt_of_succ_lt_succ hi)
      rw [List.getElem_cons_succ, hrest, List.take_succ_cons, List.map_cons, List.sum_cons]
      omega

theorem increasing (h : Executed env gas s es xs gas' s') (hgas : gas ≤ env.gasLimit) :
    ((env.gasLimit - gas) :: xs.map (·.receipt.cumulativeGasUsed)).IsChain (· < ·) := by
  induction h with
  | nil => exact .singleton _
  | cons hx _ ih =>
    have hbounds := hx.charge_bounds
    have hrest := ih (by omega)
    rw [← hx.cumulative] at hrest
    refine .cons_cons ?_ hrest
    dsimp only
    rw [hx.cumulative]
    omega

theorem last (h : Executed env gas s es xs gas' s') :
    ((xs.map (·.receipt.cumulativeGasUsed)).getLast?).getD (env.gasLimit - gas) =
      env.gasLimit - gas' := by
  induction h with
  | nil => rfl
  | cons hx _ ih =>
    rw [← hx.cumulative] at ih
    rw [List.map_cons, List.getLast?_cons]
    exact ih

theorem bloom (h : Executed env gas s es xs gas' s') :
    Bloom.ofLogs keccak256 (xs.flatMap (·.outcome.logs)) =
      (xs.map (·.receipt.bloom)).foldl (· ||| ·) 0 := by
  induction h with
  | nil => rfl
  | cons hx _ ih =>
    rw [List.flatMap_cons, Bloom.ofLogs_append, ih, List.map_cons, List.foldl_cons, ← hx.bloom,
      BitVec.or_comm 0, List.foldl_assoc]

end Executed

theorem of_closeBody_ok {content : Content} {summary : Summary}
    (h : closeBody env content p s = .ok summary s') :
    summary.gasUsed = env.gasLimit - p.gasAvailable ∧
      summary.receiptRoot = indexedRoot keccak256 p.receipts ∧
      summary.bloom = Bloom.ofLogs keccak256 p.logs := by
  rw [closeBody_eq] at h
  obtain ⟨_, _, -, h⟩ := of_seq_ok h
  obtain ⟨_, _, -, h⟩ := of_seq_ok h
  obtain ⟨_, _, -, h⟩ := of_seq_ok h
  obtain ⟨root, _, -, h⟩ := of_seq_ok h
  cases h
  exact ⟨rfl, rfl, rfl⟩

/-- How a summary accounts for the transactions of a block that have run: the receipts record what
the transactions up to theirs are charged, each after its refund; these totals increase, and the
last of them is the gas that the block has used, which its limit covers. The bloom filter joins
those of the receipts. -/
structure Summary.AccountsFor (env : Environment) (content : Content) (s : State)
    (xs : List Execution) (summary : Summary) : Prop where
  executed : ∃ s₁ s₂, openBody env content s = .ok () s₁ ∧
    Executed env env.gasLimit s₁ content.transactions xs (env.gasLimit - summary.gasUsed) s₂
  receiptRoot : summary.receiptRoot = indexedRoot keccak256 (xs.map Execution.entry)
  totals : ∀ i (hi : i < xs.length), xs[i].receipt.cumulativeGasUsed =
    ((xs.take (i + 1)).map (Execution.charge env)).sum
  increasing : (0 :: xs.map (·.receipt.cumulativeGasUsed)).IsChain (· < ·)
  charged : ∀ x ∈ xs, 0 < x.charge env ∧ x.charge env +
    x.tx.gasRefund (x.approved.environment env) x.outcome + x.outcome.gasLeft = x.tx.gas
  gasUsed : summary.gasUsed = ((xs.map (·.receipt.cumulativeGasUsed)).getLast?).getD 0
  withinLimit : summary.gasUsed ≤ env.gasLimit
  bloom : summary.bloom = (xs.map (·.receipt.bloom)).foldl (· ||| ·) 0

theorem exists_accountsFor {content : Content} {summary : Summary}
    (h : apply env content s = .ok summary s') : ∃ xs, summary.AccountsFor env content s xs := by
  rw [apply_eq] at h
  obtain ⟨_, s₁, hopen, h₁⟩ := of_seq_ok h
  obtain ⟨p, s₂, hrun, h₂⟩ := of_seq_ok h₁
  obtain ⟨_, _, _, hclose⟩ := of_seq_ok h₂
  obtain ⟨xs, hxs, hreceipts, hlogs⟩ := of_foldlM_ok hrun
  obtain ⟨hused, hroot, hbloom⟩ := of_closeBody_ok hclose
  dsimp only at hxs hreceipts hlogs
  have hsum := hxs.sum_charge
  have htotals := hxs.cumulative (Nat.le_refl env.gasLimit)
  have hincreasing := hxs.increasing (Nat.le_refl env.gasLimit)
  have hlast := hxs.last
  simp only [Nat.sub_self, Nat.zero_add] at htotals hincreasing hlast
  have hgas : env.gasLimit - summary.gasUsed = p.gasAvailable := by omega
  refine ⟨xs, ⟨s₁, s₂, hopen, by rwa [hgas]⟩, ?_, htotals, hincreasing, hxs.charge_eq, ?_, ?_, ?_⟩
  · rw [hroot, hreceipts]
    rfl
  · rw [hused, hlast]
  · rw [hused]
    exact Nat.sub_le _ _
  · rw [hbloom, hlogs]
    exact hxs.bloom

/-- Every transaction that runs is charged some gas, and not more than is available, so that the gas
of a block never falls short. The summary of a block that is applied accounts for the gas of its
transactions. -/
theorem receipts_account_for_gas :
    (∀ (env : Environment) (tx : Transaction) (gas : Nat) (s s' : State) (approved : Approved)
      (result : Transaction.Result), tx.execute env gas s = .ok (approved, result) s' →
        0 < result.gasUsed ∧ result.gasUsed ≤ gas) ∧
    ∀ (env : Environment) (content : Content) (s s' : State) (summary : Summary),
      apply env content s = .ok summary s' → ∃ xs, summary.AccountsFor env content s xs :=
  ⟨fun _ _ _ _ _ _ _ h => Transaction.execute_gasUsed h,
    fun _ _ _ _ _ h => exists_accountsFor h⟩

def twoTransfers : Content where
  transactions := [.plain .transfer, .plain { Transaction.transfer with gas := 60000 }]

def beforeTwoTransfers : State :=
  (Transaction.beforeTransfer ⟨#[0x60, 7, 0x60, 0, 0x60, 0, 0xa1]⟩ 0).setBalance
    0x4caa5cd06da5824ad17c6d1cd8a4d8e62a485568 (10 ^ 20)

/-- A block in which both are run. -/
theorem receipts_account_for_gas_logs :
    let env := { (default : Environment) with
      fork := .london, gasLimit := 150000, baseFeePerGas := 7 }
    (∃ approved result s', Transaction.transfer.execute env 100000 beforeTwoTransfers =
      .ok (approved, result) s' ∧ 0 < result.gasUsed ∧ result.gasUsed ≤ 100000) ∧
    ∃ summary s' xs, apply env twoTransfers beforeTwoTransfers = .ok summary s' ∧
      summary.bloom ≠ 0 ∧ summary.AccountsFor env twoTransfers beforeTwoTransfers xs := by
  intro env
  have hexec : okWith (fun _ _ => true)
      (Transaction.transfer.execute env 100000 beforeTwoTransfers) = true := by decide +kernel
  have happly : okWith (fun summary _ => summary.bloom ≠ 0)
      (apply env twoTransfers beforeTwoTransfers) = true := by decide +kernel
  obtain ⟨⟨approved, result⟩, t, hexec, -⟩ := of_okWith hexec
  obtain ⟨summary, s', happly, hlogs⟩ := of_okWith happly
  obtain ⟨xs, hxs⟩ := receipts_account_for_gas.2 _ _ _ _ _ happly
  exact ⟨⟨approved, result, t, hexec, receipts_account_for_gas.1 _ _ _ _ _ _ _ hexec⟩,
    summary, s', xs, happly, of_decide_eq_true hlogs, hxs⟩

end Body

end ExecutionLayer
