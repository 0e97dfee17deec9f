import ExecutionLayer.Proofs.Chain.Hashes
import ExecutionLayer.Proofs.Transaction.Conservation

/-! # What a rejected block leaves

A block that breaks a rule is not appended. If its header or its ommers break it, the chain is as it
was. Otherwise the state is not restored: a number of transactions as a whole stay done, or the
whole body if only the header does not fit to it. No snapshot is left open.
-/
namespace ExecutionLayer
open Evm
variable {g : State → Except Fault State} {s s' : State} {p : Progress}

/-- A rule of the protocol is broken, or something is not encoded as it should be. -/
def Rejection.IsInvalid : Rejection → Prop
  | .stopped _ => False
  | _ => True

/-! ## Operations on the state -/

namespace BlockOp

def Reads {α : Type} (op : BlockOp α) : Prop :=
  ∀ s, (∃ a, op s = .ok a s) ∨ ∃ r, op s = .error r s

/-- An operation that leaves the snapshots alone and breaks no rule. -/
structure Firm {α : Type} (op : BlockOp α) : Prop where
  snapshots : ∀ {s a s'}, op s = .ok a s' → s'.snapshots = s.snapshots
  sound : ∀ {s r s'}, op s = .error r s' → ¬r.IsInvalid

/-- An operation that leaves the snapshots alone and breaks a rule only at its beginning. -/
structure Careful {α : Type} (op : BlockOp α) : Prop where
  snapshots : ∀ {s a s'}, op s = .ok a s' → s'.snapshots = s.snapshots
  first : ∀ {s r s'}, op s = .error r s' → r.IsInvalid → s' = s

section Operations
variable {α β : Type} {x : BlockOp α} {f : α → BlockOp β}

theorem reads_ofExcept (r : Except Rejection α) : Reads (ofExcept r) := by
  intro s
  cases r with
  | ok a => exact Or.inl ⟨a, rfl⟩
  | error e => exact Or.inr ⟨e, rfl⟩

theorem reads_get : Reads (get : BlockOp State) := fun s => Or.inl ⟨s, rfl⟩

theorem Reads.bind (hx : Reads x) (hf : ∀ a, Reads (f a)) : Reads (x >>= f) := by
  intro s
  rcases hx s with ⟨a, ha⟩ | ⟨r, hr⟩
  · rw [seq_of_ok ha]
    exact hf a s
  · rw [seq_of_error hr]
    exact Or.inr ⟨r, rfl⟩

theorem Firm.careful (h : Firm x) : Careful x :=
  ⟨h.snapshots, fun hr hi => absurd hi (h.sound hr)⟩

theorem Reads.careful (hx : Reads x) (hf : ∀ a, Careful (f a)) : Careful (x >>= f) := by
  refine ⟨fun {s b s'} h => ?_, fun {s r s'} h hi => ?_⟩
  · rcases hx s with ⟨a, ha⟩ | ⟨e, he⟩
    · rw [seq_of_ok ha] at h
      exact (hf a).snapshots h
    · rw [seq_of_error he] at h
      cases h
  · rcases hx s with ⟨a, ha⟩ | ⟨e, he⟩
    · rw [seq_of_ok ha] at h
      exact (hf a).first h hi
    · rw [seq_of_error he] at h
      cases h
      rfl

theorem Careful.bind (hx : Careful x) (hf : ∀ a, Firm (f a)) : Careful (x >>= f) := by
  refine ⟨fun {s b s'} h => ?_, fun {s r s'} h hi => ?_⟩
  · obtain ⟨a, s₁, ha, hb⟩ := of_seq_ok h
    exact ((hf a).snapshots hb).trans (hx.snapshots ha)
  · rcases of_seq_error h with hr | ⟨a, s₁, _, hr⟩
    · exact hx.first hr hi
    · exact absurd hi ((hf a).sound hr)

theorem Firm.bind (hx : Firm x) (hf : ∀ a, Firm (f a)) : Firm (x >>= f) := by
  refine ⟨fun {s b s'} h => ?_, fun {s r s'} h => ?_⟩
  · obtain ⟨a, s₁, ha, hb⟩ := of_seq_ok h
    exact ((hf a).snapshots hb).trans (hx.snapshots ha)
  · rcases of_seq_error h with hr | ⟨a, s₁, _, hr⟩
    · exact hx.sound hr
    · exact (hf a).sound hr

theorem Firm.ite {c : Prop} [Decidable c] {y : BlockOp α} (hx : Firm x) (hy : Firm y) :
    Firm (if c then x else y) := by
  split
  · exact hx
  · exact hy

theorem firm_pure (a : α) : Firm (pure a : BlockOp α) := by
  refine ⟨fun h => ?_, fun h => ?_⟩
  · cases h
    rfl
  · cases h

theorem firm_get : Firm (get : BlockOp State) := by
  refine ⟨fun h => ?_, fun h => ?_⟩
  · cases h
    rfl
  · cases h

theorem firm_stop (e : Stop) : Firm (throw (.stopped e) : BlockOp α) := by
  refine ⟨fun h => ?_, fun h => ?_⟩
  · cases h
  · cases h
    exact id

theorem firm_modify {g : State → State} (hg : ∀ s, (g s).snapshots = s.snapshots) :
    Firm (modify g : BlockOp Unit) := by
  refine ⟨fun {s _ _} h => ?_, fun h => ?_⟩
  · cases h
    exact hg s
  · cases h

theorem firm_ofFault (r : Except Fault α) : Firm (ofFault r) := by
  cases r with
  | ok a => exact firm_pure a
  | error e => exact firm_stop (.fault e)

theorem step_of_ok {s t : State} (h : g s = .ok t) : step g s = .ok () t := by
  have hstep : step g s = (ofFault (g s) >>= fun t => set t) s := rfl
  rw [hstep, h]
  rfl

theorem step_of_error {e : Fault} (h : g s = .error e) : step g s = .error (.fault e) s := by
  have hstep : step g s = (ofFault (g s) >>= fun t => set t) s := rfl
  rw [hstep, h]
  rfl

theorem step_cases (g : State → Except Fault State) (s : State) :
    (∃ t, g s = .ok t ∧ step g s = .ok () t) ∨ ∃ e, step g s = .error (.fault e) s := by
  cases h : g s with
  | ok t => exact Or.inl ⟨t, rfl, step_of_ok h⟩
  | error e => exact Or.inr ⟨e, step_of_error h⟩

theorem of_step_ok (h : step g s = .ok () s') : g s = .ok s' := by
  rcases step_cases g s with ⟨t, ht, heq⟩ | ⟨e, heq⟩
  · rw [heq] at h
    cases h
    exact ht
  · rw [heq] at h
    cases h

theorem firm_step (hg : ∀ {s t}, g s = .ok t → t.snapshots = s.snapshots) : Firm (step g) := by
  refine ⟨fun {s _ s'} h => ?_, fun {s r s'} h => ?_⟩
  · rcases step_cases g s with ⟨t, ht, hs⟩ | ⟨e, hs⟩
    · rw [hs] at h
      cases h
      exact hg ht
    · rw [hs] at h
      cases h
  · rcases step_cases g s with ⟨t, ht, hs⟩ | ⟨e, hs⟩
    · rw [hs] at h
      cases h
    · rw [hs] at h
      cases h
      exact id

theorem firm_changeBalances
    (hg : ∀ {s t}, g s = .ok t → t.snapshots = s.snapshots) : Firm (changeBalances g) := by
  refine ⟨fun {s _ s'} h => ?_, fun {s r s'} h => ?_⟩
  · unfold changeBalances at h
    split at h
    · next t ht =>
      cases h
      exact hg ht
    · cases h
  · unfold changeBalances at h
    split at h
    · cases h
    · cases h
      exact id

theorem Firm.forM {g : β → BlockOp Unit} (hg : ∀ b, Firm (g b)) (l : List β) : Firm (l.forM g) := by
  induction l with
  | nil => exact firm_pure _
  | cons b l ih => exact (hg b).bind fun _ => ih

theorem Careful.foldlM {g : β → α → BlockOp β} (hg : ∀ b a, Careful (g b a)) {l : List α}
    {b b' : β} (h : l.foldlM g b s = .ok b' s') : s'.snapshots = s.snapshots := by
  induction l generalizing b s with
  | nil =>
    cases h
    rfl
  | cons a l ih =>
    rw [List.foldlM_cons] at h
    obtain ⟨b₁, s₁, ha, hl⟩ := of_seq_ok h
    exact (ih hl).trans ((hg b a).snapshots ha)

theorem firm_runCall (env : Environment) (message : Message) :
    Firm (runMachine env (runCall message)) := by
  refine ⟨fun {s outcome s'} h => ?_, fun {s r s'} h => ?_⟩
  · obtain ⟨w, hc, rfl⟩ := of_runMachine_ok h
    cases ht : message.isTaken s with
    | true =>
      rw [runCall_of_taken ht] at hc
      cases hc
      rfl
    | false =>
      rw [runCall_of_free ht] at hc
      obtain ⟨frame, w₁, hl, h₁⟩ := of_bind_ok hc
      obtain ⟨_, w₂, hg, h₂⟩ := of_bind_ok h₁
      cases hg
      rw [(of_conclude_ok h₂).2]
      exact (launch_returned hl).snapshots
  · unfold runMachine at h
    split at h
    · cases h
    · cases h
      exact id

end Operations

end BlockOp

/-! ## Snapshots -/

namespace State
variable {t : State}

theorem snapshots_foldl {β : Type} {g : State → β → State}
    (hg : ∀ s b, (g s b).snapshots = s.snapshots) (l : List β) (s : State) :
    (l.foldl g s).snapshots = s.snapshots := by
  induction l generalizing s with
  | nil => rfl
  | cons b l ih => exact (ih (g s b)).trans (hg s b)

theorem snapshots_destroyEmpty (l : List Address) (s : State) :
    (s.destroyEmpty l).snapshots = s.snapshots := by
  refine snapshots_foldl (fun s a => ?_) l s
  split <;> rfl

theorem snapshots_addBalance {a : Address} {n : Nat} (h : s.addBalance a n = .ok t) :
    t.snapshots = s.snapshots := by
  obtain ⟨y, rfl⟩ := of_addBalance_ok h
  rfl

theorem snapshots_withdraw {a : Address} {x : Word} (h : s.withdraw a x = .ok t) :
    t.snapshots = s.snapshots := by
  obtain ⟨y, _, h⟩ := of_except_ok h
  exact snapshots_addBalance h

end State

/-! ## Transactions -/

namespace Transaction
open BlockOp
variable (env : Environment) (tx : Transaction)

theorem reads_checkLate : Reads (tx.checkLate env) := by
  unfold checkLate
  split
  · exact reads_get.bind fun s => reads_ofExcept _
  · exact fun s => Or.inl ⟨(), rfl⟩

theorem firm_payInAdvance : Firm (tx.payInAdvance env) := by
  refine (firm_modify (g := (·.incrementNonce env.origin)) fun s => rfl).bind fun _ =>
    firm_changeBalances fun {s t} h => ?_
  unfold takeFee at h
  dsimp only at h
  split at h
  · cases h
  · cases h
    rfl

theorem snapshots_clearUp (outcome : Outcome) (s : State) :
    (clearUp env outcome s).snapshots = s.snapshots := by
  have hd : (outcome.accountsToDelete.toList.foldl State.destroyAccount s).snapshots = s.snapshots :=
    State.snapshots_foldl (g := State.destroyAccount) (fun _ _ => rfl) _ s
  unfold clearUp
  dsimp only
  split
  · rw [State.snapshots_destroyEmpty, hd]
  · exact hd

theorem snapshots_payCoinbase {fee : Nat} {s t : State} (h : payCoinbase env fee s = .ok t) :
    t.snapshots = s.snapshots := by
  obtain ⟨x, _, h⟩ := of_except_ok h
  cases h
  unfold setCoinbase
  split
  · rfl
  · split <;> rfl

theorem firm_settle (outcome : Outcome) : Firm (tx.settle env outcome) := by
  have hpay : Firm (do
      BlockOp.changeBalances
        (·.addBalance env.origin ((outcome.gasLeft + tx.gasRefund env outcome) * env.gasPrice))
      BlockOp.changeBalances
        (payCoinbase env (tx.gasUsed env outcome * (env.gasPrice - baseFee env)))
      modify (clearUp env outcome)
      return tx.gasUsed env outcome) :=
    (firm_changeBalances State.snapshots_addBalance).bind fun _ =>
      (firm_changeBalances (snapshots_payCoinbase env)).bind fun _ =>
        (firm_modify (snapshots_clearUp env outcome)).bind fun _ => firm_pure _
  exact .ite ((firm_stop (.fault .overflow)).bind fun _ =>
      .ite ((firm_stop (.fault .overflow)).bind fun _ => hpay) hpay)
    (.ite ((firm_stop (.fault .overflow)).bind fun _ => hpay) hpay)

theorem careful_process : Careful (tx.process env) := by
  have hprepare : Careful (tx.prepare env) :=
    (reads_checkLate env tx).careful fun _ => ((firm_ofFault _).bind fun _ =>
      (firm_payInAdvance env tx).bind fun _ => (firm_ofFault _).bind fun _ =>
        firm_get.bind fun _ => firm_ofFault _).careful
  exact hprepare.bind fun message => (firm_runCall env message).bind fun outcome =>
    (firm_settle env tx outcome).bind fun _ => firm_pure _

theorem careful_execute (gasAvailable : Nat) : Careful (tx.execute env gasAvailable) :=
  reads_get.careful fun _ => (reads_ofExcept _).careful fun approved =>
    (careful_process (approved.environment env) tx).bind fun _ => firm_pure _

end Transaction

/-! ## Bodies -/

namespace Body
open BlockOp
variable (env : Environment)

theorem careful_applyTransaction (p : Progress) (e : Envelope) :
    Careful (applyTransaction env p e) := by
  have hreceipt (error : Option Halt) : Firm (receiptResult env.fork error) :=
    .ite (firm_get.bind fun _ => (firm_ofFault _).bind fun _ => firm_pure _) (firm_pure _)
  refine (reads_ofExcept _).careful fun tx => (Transaction.careful_execute env tx _).bind
    fun (_, result) => ?_
  exact .ite ((firm_stop (.fault .overflow)).bind fun _ => (hreceipt _).bind fun _ => firm_pure _)
    ((hreceipt _).bind fun _ => firm_pure _)

theorem firm_storeBeaconRoot (root : Hash) : Firm (storeBeaconRoot env root) :=
  firm_get.bind fun _ => (firm_runCall _ _).bind fun _ =>
    firm_modify (State.snapshots_destroyEmpty _)

theorem firm_payRewards (ommers : List Header) : Firm (payRewards env ommers) :=
  (firm_step State.snapshots_addBalance).bind fun _ => .forM (fun _ =>
    (firm_ofFault _).bind fun _ => firm_step State.snapshots_addBalance) ommers

theorem firm_payWithdrawal (w : Withdrawal) : Firm (payWithdrawal w) :=
  (firm_step State.snapshots_withdraw).bind fun _ => firm_modify (State.snapshots_destroyEmpty _)

def openBody (content : Content) : BlockOp Unit :=
  if Fork.cancun ≤ env.fork then storeBeaconRoot env content.beaconRoot else pure ()

def checkBlobGas (p : Progress) : BlockOp Unit :=
  if Fork.cancun ≤ env.fork then BlockOp.ofExcept (Rejection.check (p.blobGasUsed ≤ maxBlobGas))
  else pure ()

def Progress.summary (p : Progress) (content : Content) (root : Hash) : Summary where
  gasUsed := env.gasLimit - p.gasAvailable
  transactionsRoot := indexedRoot keccak256 p.transactions
  receiptRoot := indexedRoot keccak256 p.receipts
  bloom := Bloom.ofLogs keccak256 p.logs
  stateRoot := root
  withdrawalsRoot := indexedRoot keccak256 (content.withdrawals.map fun w => Rlp.encodeToBytes w.item)
  blobGasUsed := p.blobGasUsed

def closeBody (content : Content) (p : Progress) : BlockOp Summary := do
  if env.fork < Fork.paris then payRewards env content.ommers
  if Fork.shanghai ≤ env.fork then content.withdrawals.forM payWithdrawal
  return p.summary env content (← BlockOp.ofFault ((← get).root keccak256))

theorem apply_eq (content : Content) : apply env content =
    openBody env content >>= fun _ => applyTransactions env content >>= fun p =>
      checkBlobGas env p >>= fun _ => closeBody env content p := by
  unfold apply openBody checkBlobGas closeBody
  dsimp only
  split
  · rfl
  · simp only [pure_bind]
    rfl

theorem closeBody_eq (content : Content) (p : Progress) : closeBody env content p =
    (if env.fork < Fork.paris then payRewards env content.ommers else pure ()) >>= fun _ =>
      (if Fork.shanghai ≤ env.fork then content.withdrawals.forM payWithdrawal else pure ()) >>=
        fun _ => get >>= fun s => BlockOp.ofFault (s.root keccak256) >>= fun root =>
          pure (p.summary env content root) := by
  unfold closeBody
  dsimp only
  split <;> split <;> rfl

/-- The body up to the given number of transactions. -/
def applyFirst (content : Content) (n : Nat) : BlockOp Progress := do
  openBody env content
  applyTransactions env { content with transactions := content.transactions.take n }

theorem firm_openBody (content : Content) : Firm (openBody env content) :=
  .ite (firm_storeBeaconRoot env _) (firm_pure _)

theorem firm_closeBody (content : Content) (p : Progress) : Firm (closeBody env content p) := by
  rw [closeBody_eq]
  exact (Firm.ite (firm_payRewards env _) (firm_pure _)).bind fun _ =>
    (Firm.ite (Firm.forM firm_payWithdrawal _) (firm_pure _)).bind fun _ =>
      firm_get.bind fun _ => (firm_ofFault _).bind fun _ => firm_pure _

theorem snapshots_applyTransactions {content : Content}
    (h : applyTransactions env content s = .ok p s') : s'.snapshots = s.snapshots :=
  Careful.foldlM (careful_applyTransaction env) h

theorem snapshots_applyFirst {content : Content} {n : Nat}
    (h : applyFirst env content n s = .ok p s') : s'.snapshots = s.snapshots := by
  obtain ⟨_, s₁, ho, ht⟩ := of_seq_ok h
  exact (snapshots_applyTransactions env ht).trans ((firm_openBody env content).snapshots ho)

theorem snapshots_apply {content : Content} {summary : Summary}
    (h : apply env content s = .ok summary s') : s'.snapshots = s.snapshots := by
  rw [apply_eq] at h
  obtain ⟨_, s₁, ho, h₁⟩ := of_seq_ok h
  obtain ⟨p, s₂, ht, h₂⟩ := of_seq_ok h₁
  obtain ⟨_, s₃, hb, h₃⟩ := of_seq_ok h₂
  have hread : s₃ = s₂ := by
    unfold checkBlobGas at hb
    split at hb
    · exact (Transaction.ofExcept_eq_ok hb).2
    · cases hb
      rfl
  rw [(firm_closeBody env content p).snapshots h₃, hread, snapshots_applyTransactions env ht,
    (firm_openBody env content).snapshots ho]

theorem checkBlobGas_rejected {r : Rejection}
    (h : checkBlobGas env p s = .error r s') : maxBlobGas < p.blobGasUsed ∧ s' = s := by
  unfold checkBlobGas at h
  split at h
  · by_cases hp : p.blobGasUsed ≤ maxBlobGas
    · rw [Rejection.check, if_pos (decide_eq_true hp)] at h
      cases h
    · rw [Rejection.check, if_neg (by simpa using hp)] at h
      cases h
      exact ⟨Nat.lt_of_not_le hp, rfl⟩
  · cases h

/-- A body is rejected between two transactions, or because of its blobs after all of them. -/
theorem apply_rejected {content : Content} {r : Rejection} (h : apply env content s = .error r s')
    (hr : r.IsInvalid) : ∃ n p, applyFirst env content n s = .ok p s' ∧
      ((∃ e, content.transactions[n]? = some e ∧ applyTransaction env p e s' = .error r s') ∨
        n = content.transactions.length ∧ maxBlobGas < p.blobGasUsed) := by
  rw [apply_eq] at h
  rcases of_seq_error h with ho | ⟨_, s₁, ho, h₁⟩
  · exact absurd hr ((firm_openBody env content).sound ho)
  rcases of_seq_error h₁ with ht | ⟨p, s₂, ht, h₂⟩
  · obtain ⟨n, e, p, s₂, hn, htake, he⟩ := of_foldlM_error ht
    obtain rfl := (careful_applyTransaction env p e).first he hr
    exact ⟨n, p, (seq_of_ok ho _).trans htake, Or.inl ⟨e, hn, he⟩⟩
  rcases of_seq_error h₂ with hb | ⟨_, s₃, _, hc⟩
  · obtain ⟨hgas, rfl⟩ := checkBlobGas_rejected env hb
    refine ⟨content.transactions.length, p, ?_, Or.inr ⟨rfl, hgas⟩⟩
    rw [applyFirst, List.take_length, seq_of_ok ho]
    exact ht
  · exact absurd hr ((firm_closeBody env content p).sound hc)

end Body

/-! ## Chains -/

namespace Chain
variable {fork : Fork} {work : WorkCheck} {block : Block} {c c' : Chain} {r : Rejection}

theorem apply_error (h : apply fork work block c = .error r c') :
    (checkBlock fork work c.blocks block = .error r ∧ c' = c) ∨
    (checkBlock fork work c.blocks block = .ok () ∧ ∃ s', c' = { c with state := s' } ∧
      (Body.apply (environment fork c block.header) (content block) c.state = .error r s' ∨
        ∃ summary, announces fork block.header summary = false ∧
          Body.apply (environment fork c block.header) (content block) c.state =
            .ok summary s')) := by
  rw [apply_eq] at h
  split at h
  · next hcheck =>
    cases h
    exact Or.inl ⟨hcheck, rfl⟩
  next hcheck =>
  refine Or.inr ⟨hcheck, ?_⟩
  split at h
  · next hbody =>
    cases h
    exact ⟨_, rfl, Or.inl hbody⟩
  next summary s hbody =>
  split at h
  · cases h
  · next ha =>
    cases h
    exact ⟨s, rfl, Or.inr ⟨summary, by simpa using ha, hbody⟩⟩

/-- If a block breaks a rule, the blocks of the chain and its snapshots are what they were. If header
or ommers break it, the chain is as it was. Else the state is what the body has left before the
rejection: all of it, if the header announces something else, or the transactions before the one
that is rejected, which has left nothing itself, or all of them if there are too many blobs. -/
theorem rejected_block_leaves (h : apply fork work block c = .error r c') (hr : r.IsInvalid) :
    c'.blocks = c.blocks ∧ c'.state.snapshots = c.state.snapshots ∧
    (checkBlock fork work c.blocks block = .error r ∧ c' = c ∨
      checkBlock fork work c.blocks block = .ok () ∧
        ((∃ summary, announces fork block.header summary = false ∧
            Body.apply (environment fork c block.header) (content block) c.state =
              .ok summary c'.state) ∨
          ∃ n p, Body.applyFirst (environment fork c block.header) (content block) n c.state =
              .ok p c'.state ∧
            ((∃ e, block.transactions[n]? = some e ∧
                Body.applyTransaction (environment fork c block.header) p e c'.state =
                  .error r c'.state) ∨
              n = block.transactions.length ∧ Body.maxBlobGas < p.blobGasUsed))) := by
  rcases apply_error h with ⟨hcheck, rfl⟩ | ⟨hcheck, s', rfl, hbody | ⟨summary, ha, hbody⟩⟩
  · exact ⟨rfl, rfl, Or.inl ⟨hcheck, rfl⟩⟩
  · obtain ⟨n, p, hfirst, hwhy⟩ := Body.apply_rejected _ hbody hr
    exact ⟨rfl, Body.snapshots_applyFirst _ hfirst, Or.inr ⟨hcheck, Or.inr ⟨n, p, hfirst, hwhy⟩⟩⟩
  · exact ⟨rfl, Body.snapshots_apply _ hbody, Or.inr ⟨hcheck, Or.inl ⟨summary, ha, hbody⟩⟩⟩

theorem checkBlock_of_parent {blocks : List Block} {parent : Block} (hf : fork < Fork.cancun)
    (hparent : blockBack blocks 0 = .ok parent)
    (hvalid : block.header.validate fork work parent.header = .ok ()) :
    checkBlock fork work blocks block =
      if fork < Fork.paris then checkOmmers fork work blocks block.header block.ommers
      else Rejection.check block.ommers.isEmpty := by
  rw [checkBlock, except_of_ok (Rejection.ofFault_ok_iff.mpr hparent),
    if_neg (show ¬Fork.cancun ≤ fork from Nat.not_le.mpr hf)]
  exact except_of_ok hvalid _

section Checked
variable {summary : Body.Summary} (hcheck : checkBlock fork work c.blocks block = .ok ())
include hcheck

theorem apply_of_body_error
    (hbody : Body.apply (environment fork c block.header) (content block) c.state = .error r s') :
    apply fork work block c = .error r { c with state := s' } := by
  simp only [apply_eq, hcheck, hbody]

variable
  (hbody : Body.apply (environment fork c block.header) (content block) c.state = .ok summary s')
include hbody

theorem apply_of_unannounced (ha : announces fork block.header summary = false) :
    apply fork work block c = .error .invalidBlock { c with state := s' } := by
  simp only [apply_eq, hcheck, hbody, ha, Bool.false_eq_true, if_false]

theorem apply_of_announced (ha : announces fork block.header summary = true) :
    apply fork work block c = .ok () (append { c with state := s' } block) := by
  simp only [apply_eq, hcheck, hbody, ha, if_true]

end Checked

def firstHeader : Header :=
  { (default : Header) with
    ommersHash := emptyOmmersHash, gasLimit := 5000000, gasUsed := 2500000, baseFee? := some 7
    withdrawalsRoot? := some 0 }

def emptyChain : Chain where
  blocks := [{ header := firstHeader, transactions := [], ommers := [] }]
  state := {}
  chainId := 1

/-- A block with a withdrawal and no transactions that announces some gas used. -/
def wastefulBlock : Block where
  header := { (default : Header) with
    parentHash := firstHeader.hash, ommersHash := emptyOmmersHash, number := 1
    gasLimit := 5000000, gasUsed := 1, timestamp := 10, baseFee? := some 7
    withdrawalsRoot? := some 0 }
  transactions := []
  ommers := []
  withdrawals := [⟨0, 0, 0xcc, 5⟩]

theorem wastefulBlock_checked (work : WorkCheck) :
    checkBlock .shanghai work emptyChain.blocks wastefulBlock = .ok () := by
  have hvalid : wastefulBlock.header.validate .shanghai work firstHeader = .ok () :=
    Header.validate_of_late (by decide) rfl rfl rfl rfl rfl rfl rfl
  exact checkBlock_of_parent (by decide) rfl hvalid

theorem wastefulBlock_rejected (work : WorkCheck) : ∃ c',
    apply .shanghai work wastefulBlock emptyChain = .error .invalidBlock c' ∧
      c'.state.balance 0xcc = 5000000000 := by
  have hrun : (match Body.apply (environment .shanghai emptyChain wastefulBlock.header)
        (content wastefulBlock) {} with
      | .ok summary s' => !announces .shanghai wastefulBlock.header summary &&
          decide (s'.balance 0xcc = 5000000000)
      | .error _ _ => false) = true := by decide +kernel
  split at hrun
  · next summary s' hbody =>
    simp only [Bool.and_eq_true, Bool.not_eq_true', decide_eq_true_eq] at hrun
    exact ⟨_, apply_of_unannounced (wastefulBlock_checked work) hbody hrun.1, hrun.2⟩
  · cases hrun

/-- The body of a block without transactions is done as a whole before the block is rejected. -/
theorem rejected_block_leaves_withdrawal : ∃ c',
    apply .shanghai (fun _ => .ok ()) wastefulBlock emptyChain = .error .invalidBlock c' ∧
      c'.blocks = emptyChain.blocks ∧ c'.state.snapshots = [] ∧
      ∃ summary, announces .shanghai wastefulBlock.header summary = false ∧
        Body.apply (environment .shanghai emptyChain wastefulBlock.header) (content wastefulBlock)
          {} = .ok summary c'.state := by
  obtain ⟨c', h, hb⟩ := wastefulBlock_rejected fun _ => .ok ()
  obtain ⟨hblocks, hsnapshots, hwhy⟩ := rejected_block_leaves h trivial
  refine ⟨c', h, hblocks, hsnapshots, ?_⟩
  rcases hwhy with ⟨_, rfl⟩ | ⟨_, hlate | ⟨n, p, hfirst, ⟨e, hn, _⟩ | ⟨rfl, hblobs⟩⟩⟩
  · exact absurd hb (by decide)
  · exact hlate
  · cases hn
  · obtain ⟨rfl, -⟩ := EStateM.Result.ok.inj hfirst
    exact absurd hblobs (by decide)

/-- Accounts may have changed when a block is rejected. -/
theorem rejected_block_changes_accounts : ¬∀ (fork : Fork) (work : WorkCheck) (block : Block)
    (c c' : Chain) (r : Rejection), apply fork work block c = .error r c' → r.IsInvalid →
      c'.blocks = c.blocks ∧ c'.state.accounts = c.state.accounts ∧
        c'.state.storage = c.state.storage ∧ c'.state.snapshots = c.state.snapshots := by
  intro hunchanged
  obtain ⟨c', h, hb⟩ := wastefulBlock_rejected fun _ => .ok ()
  have haccounts := (hunchanged .shanghai _ wastefulBlock emptyChain c' _ h trivial).2.1
  rw [State.balance, State.account, State.account?, haccounts] at hb
  exact absurd hb (by decide)

end Chain

end ExecutionLayer
