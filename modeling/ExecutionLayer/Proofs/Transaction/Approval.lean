import ExecutionLayer.Block.Basic
import ExecutionLayer.Proofs.Header.Validation
import ExecutionLayer.Proofs.Transaction.Replay

/-! # How transactions are refused

Before a transaction runs it is decoded, its sender is found, and it is checked in its block. It is
refused by rules only, apart from an empty string, a signature without a key, a chain id that is too
large, and, where the cost is asked for in advance, an incomplete entry of the access list.
-/
namespace ExecutionLayer

namespace Transaction
variable {fork : Fork} {chainId : Nat} {tx : Transaction} {env : Evm.Environment}

theorem isProper_of_typedSchema {type : UInt8} {s : Rlp.Schema}
    (h : typedSchema? fork type = some s) : s.isProper = true := by
  unfold typedSchema? at h
  split at h
  · cases h
    rfl
  · split at h
    · cases h
      rfl
    · split at h
      · cases h
        rfl
      · cases h

theorem decodeAs_refuses {s : Rlp.Schema} (hs : s.isProper = true) (b : Bytes) :
    RefusesUnless False (decodeAs s b) := by
  refine RefusesUnless.bind (fun r h => Or.inl ?_) fun v _ => ?_
  · cases hd : s.decodeBytes b with
    | ok v =>
      rw [hd] at h
      cases h
    | error e =>
      rw [hd] at h
      cases h
      exact Rlp.Schema.decodeBytes_isOfInput hs b e hd
  · split
    · exact refuses_ok _
    · intro r h
      cases h
      exact Or.inl trivial

theorem decodeTyped_refuses (fork : Fork) (b : Bytes) :
    RefusesUnless (b = .empty) (decodeTyped fork b) := by
  refine .ite (fun hsize r _ => Or.inr (ByteArray.size_eq_zero_iff.mp hsize)) fun _ => ?_
  split
  · next s hs => exact (decodeAs_refuses (isProper_of_typedSchema hs) _).mono False.elim
  · exact refuses_invalid

/-- The numbers that signatures for the chain contain do not fit 64 bits. -/
def ChainOverflows (fork : Fork) (chainId : Nat) (tx : Transaction) : Prop :=
  Fork.spuriousDragon ≤ fork ∧ 2 ^ 64 ≤ 36 + 2 * chainId ∧
    ∃ price v, tx.kind = .legacy price v ∧ v.toNat ≠ 27 ∧ v.toNat ≠ 28

/-- The signature can be read, but it is none: it leads to no account. -/
def LacksKey (fork : Fork) (chainId : Nat) (tx : Transaction) : Prop :=
  ∃ signed, tx.readSignature fork chainId = .ok signed ∧
    ∀ a, ¬tx.Recovers Secp256k1.recover signed a

theorem chainWord_of_lt {n : Nat} (h : n < 2 ^ 64) : chainWord n = .ok n := if_pos h

theorem legacyPreimage_total {price : Nat} {v : Word} (hk : tx.kind = .legacy price v) :
    ∃ b, tx.legacyPreimage = .ok b := ⟨_, except_of_ok (legacyFields_eq hk) _⟩

theorem protectedPreimage_total {price : Nat} {v : Word} (hk : tx.kind = .legacy price v) :
    ∃ b, tx.protectedPreimage chainId = .ok b := ⟨_, except_of_ok (legacyFields_eq hk) _⟩

theorem readProtected_refuses {price : Nat} {v : Word} (hk : tx.kind = .legacy price v)
    (hc : 36 + 2 * chainId < 2 ^ 64) : RefusesUnless False (tx.readProtected chainId v) := by
  have hword {n : Nat} (hn : n ≤ 36 + 2 * chainId) : ∃ m, chainWord n = .ok m :=
    ⟨n, chainWord_of_lt (hn.trans_lt hc)⟩
  have hpreimage (recovery : Nat) : RefusesUnless False (do
      return (⟨recovery, ← Rejection.ofFault (tx.protectedPreimage chainId)⟩ : Signed)) :=
    (refuses_ofFault (Or.inl (protectedPreimage_total hk))).bind fun _ _ => refuses_ok _
  refine (refuses_ofFault (Or.inl (hword (by omega)))).bind fun twice htwice => ?_
  have htwice := of_chainWord_ok (Rejection.of_ofFault_ok htwice)
  refine (refuses_ofFault (Or.inl (hword (by omega)))).bind fun low _ => ?_
  refine .ite (fun _ => hpreimage 0) fun _ => ?_
  exact (refuses_ofFault (Or.inl (hword (by omega)))).bind fun high _ =>
    (refuses_check _).bind fun _ _ => hpreimage 1

theorem readSignature_refuses (fork : Fork) (chainId : Nat) (tx : Transaction) :
    RefusesUnless (tx.ChainOverflows fork chainId) (tx.readSignature fork chainId) := by
  cases hn : tx.namedChain? with
  | some chain =>
    rw [readSignature_of_namedChain hn]
    exact refuses_ok _
  | none =>
    cases hk : tx.kind with
    | accessList | feeMarket | blob => simp [namedChain?, hk] at hn
    | legacy price v =>
      unfold readSignature
      rw [hk]
      refine .ite (fun _ => refuses_ofFault (Or.inl ?_)) fun hv => .ite (fun _ => refuses_invalid)
        fun hf => ?_
      · obtain ⟨b, hb⟩ := legacyPreimage_total hk
        exact ⟨_, except_of_ok hb _⟩
      · by_cases hc : 36 + 2 * chainId < 2 ^ 64
        · exact (readProtected_refuses hk hc).mono False.elim
        · have hne : v.toNat ≠ 27 ∧ v.toNat ≠ 28 := by simpa using hv
          exact fun r _ => Or.inr ⟨Nat.le_of_not_lt hf, Nat.le_of_not_lt hc, price, v, hk, hne⟩

theorem sender_refuses (fork : Fork) (chainId : Nat) (tx : Transaction) :
    RefusesUnless (tx.ChainOverflows fork chainId ∨ tx.LacksKey fork chainId)
      (tx.sender fork chainId) := by
  refine (refuses_check _).bind fun _ _ =>
    ((readSignature_refuses fork chainId tx).mono Or.inl).bind fun signed hsigned =>
      (refuses_ofFault ?_).bind fun _ _ => refuses_ok _
  by_cases hkey : ∃ a, tx.Recovers Secp256k1.recover signed a
  · obtain ⟨_, key, hkey, -⟩ := hkey
    exact Or.inl ⟨key, hkey⟩
  · exact Or.inr (Or.inr ⟨signed, hsigned, not_exists.mp hkey⟩)

def HasGap (tx : Transaction) : Prop := ∃ e ∈ tx.accesses, ∀ parts, e.parts ≠ .ok parts

theorem accessListCost_total {l : AccessList} (h : ∀ e ∈ l, ∃ parts, e.parts = .ok parts) :
    ∃ cost, accessListCost l = .ok cost := by
  induction l with
  | nil => exact ⟨0, rfl⟩
  | cons e l ih =>
    obtain ⟨parts, hparts⟩ := h e List.mem_cons_self
    obtain ⟨cost, hcost⟩ := ih fun e' he => h e' (List.mem_cons_of_mem e he)
    refine ⟨accessAddressCost + parts.2.length * accessKeyCost + cost, ?_⟩
    rw [accessListCost, except_of_ok hparts]
    exact except_of_ok hcost _

theorem checkForm_refuses (fork : Fork) (tx : Transaction) :
    RefusesUnless tx.HasGap (tx.checkForm fork) := by
  refine (refuses_ofFault ?_).bind fun _ _ => refuses_check _
  by_cases hgap : tx.HasGap
  · exact Or.inr hgap
  · have hparts : ∀ e ∈ tx.accesses, ∃ parts, e.parts = .ok parts := by
      intro e he
      by_contra hnone
      exact hgap ⟨e, he, not_exists.mp hnone⟩
    obtain ⟨cost, hcost⟩ := accessListCost_total hparts
    have hintrinsic : ∃ cost, tx.intrinsicCost fork = .ok cost := ⟨_, except_of_ok hcost _⟩
    obtain ⟨cost, hcost⟩ := hintrinsic
    exact Or.inl ⟨_, except_of_ok hcost _⟩

theorem effectivePrice_refuses (fork : Fork) (baseFee : Nat) (tx : Transaction) :
    RefusesUnless False (tx.effectivePrice fork baseFee) := by
  refine .ite (fun _ => refuses_ok _) fun _ => ?_
  cases tx.kind with
  | legacy | accessList => exact (refuses_check _).bind fun _ _ => refuses_ok _
  | feeMarket | blob =>
    exact (refuses_check _).bind fun _ _ => (refuses_check _).bind fun _ _ => refuses_ok _

theorem checkBlobs_refuses (excess : Nat) (tx : Transaction) :
    RefusesUnless False (tx.checkBlobs excess) := by
  unfold checkBlobs
  split
  · exact (refuses_check _).bind fun _ _ => (refuses_check _).bind fun _ _ =>
      (refuses_check _).bind fun _ _ => (refuses_check _).bind fun _ _ => refuses_ok _
  · exact refuses_ok _

theorem checkFunds_refuses (env : Evm.Environment) (s : State) (sender : Address)
    (tx : Transaction) : RefusesUnless False (tx.checkFunds env s sender) :=
  .ite (fun _ => (checkBlobs_refuses _ tx).bind fun _ _ => (refuses_check _).bind fun _ _ =>
    (refuses_check _).bind fun _ _ => refuses_check _) fun _ => refuses_ok ()

def IsUncheckable (fork : Fork) (chainId : Nat) (tx : Transaction) : Prop :=
  tx.ChainOverflows fork chainId ∨ tx.LacksKey fork chainId ∨ Fork.cancun ≤ fork ∧ tx.HasGap

theorem approve_refuses (env : Evm.Environment) (s : State) (gas : Nat) (tx : Transaction) :
    RefusesUnless (tx.IsUncheckable env.fork env.chainId) (tx.approve env s gas) := by
  have hearly : RefusesUnless (tx.IsUncheckable env.fork env.chainId) (tx.checkEarly env) :=
    .ite (fun hf => (checkForm_refuses env.fork tx).mono fun hgap => Or.inr (Or.inr ⟨hf, hgap⟩))
      fun _ => refuses_ok ()
  have hsender : RefusesUnless (tx.IsUncheckable env.fork env.chainId)
      (tx.sender env.fork env.chainId) :=
    (sender_refuses env.fork env.chainId tx).mono (Or.imp_right Or.inl)
  exact hearly.bind fun _ _ => (refuses_check _).bind fun _ _ => hsender.bind fun sender _ =>
    ((effectivePrice_refuses _ _ tx).mono False.elim).bind fun _ _ =>
      ((checkFunds_refuses env s sender tx).mono False.elim).bind fun _ _ => refuses_ok _

end Transaction

theorem Envelope.transaction_refuses (fork : Fork) (e : Envelope) :
    RefusesUnless (e = .typed .empty) (e.transaction fork) := by
  cases e with
  | plain tx => exact refuses_ok tx
  | typed b => exact (Transaction.decodeTyped_refuses fork b).mono (congrArg typed)

end ExecutionLayer
