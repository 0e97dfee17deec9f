import ExecutionLayer.Proofs.Sequence
import ExecutionLayer.Proofs.Trie.Node
import ExecutionLayer.Transaction.Execution

/-! # The chain that a signature is for

The bytes that are signed tell for which chain, if for any. A legacy transaction that is signed for
a chain is accepted on this chain alone. The other kinds name a chain, but nothing compares it with
the chain they are in.
-/
namespace ExecutionLayer.Transaction
open Evm (Environment)
open Rlp (Item)
variable {fork : Fork} {chainId : Nat} {tx : Transaction}

/-- The chain that a transaction names. Legacy transactions name none. -/
def namedChain? (tx : Transaction) : Option Nat :=
  match tx.kind with
  | .legacy _ _ => none
  | .accessList chain _ _ _ | .feeMarket chain _ _ _ _ | .blob chain _ _ _ _ _ _ =>
    some chain.toNat

/-- The bytes are what some transaction signs for the given chain, or for none. -/
inductive SignedFor : Option Nat → Bytes → Prop
  | unprotected {tx : Transaction} : tx.type? = none →
    SignedFor none (preimage none tx.unsignedItems)
  | guarded {tx : Transaction} {chain : Nat} : tx.type? = none →
    SignedFor (some chain) (preimage none (tx.unsignedItems ++ [.ofNat chain, .ofNat 0, .ofNat 0]))
  | typed {tx : Transaction} {chain : Nat} : tx.namedChain? = some chain →
    SignedFor (some chain) (preimage tx.type? tx.unsignedItems)

/-- The bytes are signed for the given chain and, unless they are too many to have an encoding, for
no other one. -/
def CommitsTo (chain? : Option Nat) (signed : Bytes) : Prop :=
  SignedFor chain? signed ∧
    (signed.size < 2 ^ 64 → ∀ other? : Option Nat, SignedFor other? signed → other? = chain?)

theorem toList_preimage (type? : Option UInt8) (fields : List Item) :
    (preimage type? fields).toList = type?.toList ++ Rlp.encode (.list fields) := by
  cases type? <;> simp [preimage, Rlp.encodeToBytes, Bytes.toList, Bytes.ofList]

/-- The numbers of the kinds are no first byte of a list, so the signed bytes determine number and
fields. -/
theorem preimage_inj {a b : Option UInt8} {fields items : List Item} (ha : ∀ t ∈ a, t.toNat < 192)
    (hb : ∀ t ∈ b, t.toNat < 192) (hsize : (preimage a fields).size < 2 ^ 64)
    (h : preimage a fields = preimage b items) : a = b ∧ fields = items := by
  have hl := congrArg Bytes.toList h
  have hlen : (preimage a fields).toList.length < 2 ^ 64 := hsize
  have hlen' := hl ▸ hlen
  rw [toList_preimage, List.length_append] at hlen hlen'
  rw [toList_preimage, toList_preimage] at hl
  have hhead (l : List Item) (hl : (Rlp.encode (.list l)).length < 2 ^ 64) :
      ∃ c tail, Rlp.encode (.list l) = c :: tail ∧ 192 ≤ c.toNat := by
    rw [Rlp.encode] at hl ⊢
    obtain ⟨c, tail, hc, hlow, -⟩ :=
      Rlp.exists_cons_wrap (le_refl 192) ((Rlp.length_lt_length_wrap 192 _).trans hl)
    exact ⟨c, tail, hc, hlow⟩
  cases a with
  | none =>
    cases b with
    | none =>
      exact ⟨rfl, Item.list.inj (Rlp.encode_inj (by omega) (by omega) (by simpa using hl))⟩
    | some t =>
      obtain ⟨c, tail, hc, hge⟩ := hhead fields (by omega)
      have hlt := hb t rfl
      rw [hc] at hl
      rw [(List.cons.inj hl).1] at hge
      omega
  | some t =>
    cases b with
    | none =>
      obtain ⟨c, tail, hc, hge⟩ := hhead items (by omega)
      have hlt := ha t rfl
      rw [hc] at hl
      rw [← (List.cons.inj hl).1] at hge
      omega
    | some t' =>
      obtain ⟨ht, hl⟩ := List.cons.inj hl
      exact ⟨congrArg some ht, Item.list.inj (Rlp.encode_inj (by omega) (by omega) hl)⟩

/-- Where the signed fields tell the chain: behind the six fields of a legacy transaction, and in
front of the fields of another one. -/
def chainItem? : Option UInt8 → List Item → Option Item
  | none, fields => fields[6]?
  | some _, fields => fields.head?

theorem unsignedItems_of_legacy (h : tx.type? = none) : ∃ price, tx.unsignedItems =
    [.ofWord tx.nonce, .ofNat price, .ofNat tx.gas] ++ tx.payloadItems := by
  unfold type? at h
  unfold unsignedItems
  cases hk : tx.kind with
  | legacy price v => exact ⟨price, rfl⟩
  | accessList | feeMarket | blob => simp [hk] at h

theorem SignedFor.exists_chainItem {chain? : Option Nat} {b : Bytes} (h : SignedFor chain? b) :
    ∃ type? fields, b = preimage type? fields ∧ (∀ t ∈ type?, t.toNat < 192) ∧
      chainItem? type? fields = chain?.map Item.ofNat := by
  cases h with
  | unprotected ht | guarded ht =>
    refine ⟨none, _, rfl, by simp, ?_⟩
    obtain ⟨price, hitems⟩ := unsignedItems_of_legacy ht
    rw [hitems]
    rfl
  | @typed tx chain hc =>
    refine ⟨tx.type?, _, rfl, ?_, ?_⟩
    · unfold type?
      cases tx.kind <;> simp
    · unfold namedChain? at hc
      unfold type? unsignedItems
      cases hk : tx.kind <;> rw [hk] at hc <;> cases hc <;> rfl

theorem SignedFor.commitsTo {chain? : Option Nat} {b : Bytes} (h : SignedFor chain? b) :
    CommitsTo chain? b := by
  refine ⟨h, fun hsize other? ho => ?_⟩
  obtain ⟨t, fields, rfl, ht, hc⟩ := h.exists_chainItem
  obtain ⟨t', fields', hb, ht', hc'⟩ := ho.exists_chainItem
  obtain ⟨rfl, rfl⟩ := preimage_inj ht ht' hsize hb
  rw [hc] at hc'
  cases chain? with
  | none => cases other? <;> simp_all
  | some chain =>
    cases other? with
    | none => simp at hc'
    | some other => simpa using (Item.ofNat_inj (Option.some.inj hc')).symm

theorem legacyFields_eq {price : Nat} {v : Word} (hk : tx.kind = .legacy price v) :
    tx.legacyFields = .ok tx.unsignedItems := by
  simp [legacyFields, gasPrice, unsignedItems, hk, bind, Except.bind, pure, Except.pure]

theorem type?_of_legacy {price : Nat} {v : Word} (hk : tx.kind = .legacy price v) :
    tx.type? = none := by
  rw [type?, hk]

/-- A transaction that names a chain signs all its other fields, and how its signature is read does
not depend on the chain it is in. -/
theorem readSignature_of_namedChain {chain : Nat} (h : tx.namedChain? = some chain) (fork : Fork)
    (chainId : Nat) : tx.readSignature fork chainId =
      .ok ⟨tx.recoveryWord.toNat, preimage tx.type? tx.unsignedItems⟩ := by
  unfold namedChain? at h
  cases hk : tx.kind with
  | legacy price v => simp [hk] at h
  | accessList | feeMarket | blob =>
    simp [readSignature, recoveryWord, type?, accessListPreimage, feeMarketPreimage, blobPreimage,
      accessListFields, feeMarketFields, blobFields, unsignedItems, Rejection.ofFault, hk, bind,
      Except.bind, pure, Except.pure]

theorem of_chainWord_ok {n m : Nat} (h : chainWord n = .ok m) : m = n := by
  unfold chainWord at h
  split at h
  · exact (Except.ok.inj h).symm
  · cases h

theorem of_readProtected_ok {v : Word} {signed : Signed} {price : Nat}
    (hk : tx.kind = .legacy price v) (h : tx.readProtected chainId v = .ok signed) :
    (v.toNat = 35 + 2 * chainId ∨ v.toNat = 36 + 2 * chainId) ∧
      SignedFor (some chainId) signed.preimage := by
  have hp : tx.protectedPreimage chainId =
      .ok (preimage none (tx.unsignedItems ++ [.ofNat chainId, .ofNat 0, .ofNat 0])) := by
    rw [protectedPreimage, legacyFields_eq hk]
    rfl
  have hs : SignedFor (some chainId)
      (preimage none (tx.unsignedItems ++ [.ofNat chainId, .ofNat 0, .ofNat 0])) :=
    .guarded (type?_of_legacy hk)
  unfold readProtected at h
  rw [hp] at h
  obtain ⟨twice, ht, h⟩ := of_except_ok h
  obtain ⟨low, hlow, h⟩ := of_except_ok h
  have ht := of_chainWord_ok (Rejection.of_ofFault_ok ht)
  have hlow := of_chainWord_ok (Rejection.of_ofFault_ok hlow)
  split at h
  · next hv =>
    cases h
    exact ⟨Or.inl (by omega), hs⟩
  · obtain ⟨high, hhigh, h⟩ := of_except_ok h
    obtain ⟨_, hc, h⟩ := of_except_ok h
    have hhigh := of_chainWord_ok (Rejection.of_ofFault_ok hhigh)
    have hv : v.toNat = high := of_decide_eq_true (Rejection.of_check_ok hc)
    cases h
    exact ⟨Or.inr (by omega), hs⟩

section Acceptance
variable {recover : Recovery} {env : Environment} {a : Address}

/-- The account that the signature of a transaction leads to, if it is read as given. -/
def Recovers (recover : Recovery) (tx : Transaction) (signed : Signed) (a : Address) : Prop :=
  ∃ key, recover tx.r.toNat tx.s.toNat signed.recovery (keccak256 signed.preimage) = .ok key ∧
    a = (keccak256 key).setWidth 160

theorem of_senderBy_ok (h : tx.senderBy recover fork chainId = .ok a) :
    ∃ signed, tx.readSignature fork chainId = .ok signed ∧ tx.Recovers recover signed a := by
  obtain ⟨_, _, h⟩ := of_except_ok h
  obtain ⟨signed, hs, h⟩ := of_except_ok h
  obtain ⟨key, hkey, h⟩ := of_except_ok h
  exact ⟨signed, hs, key, Rejection.of_ofFault_ok hkey, (Except.ok.inj h).symm⟩

theorem of_approveBy_ok {s : State} {gas : Nat} {approved : Approved}
    (h : tx.approveBy recover env s gas = .ok approved) :
    tx.senderBy recover env.fork env.chainId = .ok approved.sender := by
  obtain ⟨_, _, h⟩ := of_except_ok h
  obtain ⟨_, _, h⟩ := of_except_ok h
  obtain ⟨sender, hs, h⟩ := of_except_ok h
  obtain ⟨price, _, h⟩ := of_except_ok h
  obtain ⟨_, _, h⟩ := of_except_ok h
  cases h
  exact hs

/-- A transaction is accepted from an account: its signature leads there, or it passes the checks in
its block as a transaction of the account. -/
def AcceptedFrom (recover : Recovery) (env : Environment) (tx : Transaction) (a : Address) : Prop :=
  tx.senderBy recover env.fork env.chainId = .ok a ∨
    ∃ s gas approved, tx.approveBy recover env s gas = .ok approved ∧ approved.sender = a

theorem AcceptedFrom.sender_eq (h : AcceptedFrom recover env tx a) :
    tx.senderBy recover env.fork env.chainId = .ok a := by
  rcases h with h | ⟨s, gas, approved, h, rfl⟩
  · exact h
  · exact of_approveBy_ok h

theorem approveBy_of_namedChain {chain : Nat} (h : tx.namedChain? = some chain) (recover : Recovery)
    (env : Environment) (other : Nat) (s : State) (gas : Nat) :
    tx.senderBy recover env.fork other = tx.senderBy recover env.fork env.chainId ∧
      tx.approveBy recover { env with chainId := other } s gas =
        tx.approveBy recover env s gas := by
  have hs : tx.senderBy recover env.fork other = tx.senderBy recover env.fork env.chainId := by
    simp only [senderBy, readSignature_of_namedChain h]
  refine ⟨hs, ?_⟩
  unfold approveBy
  rw [← hs]
  rfl

/-- Whatever way there is to find keys: the signature of a transaction that is accepted since Spurious
Dragon is for no chain, for the chain the transaction is in, or for the chain that the transaction
names. In the last case the transaction is accepted on all chains alike, and the key is looked for
with the recovery number that it gives, whichever that is. -/
theorem chain_of_accepted (hf : Fork.spuriousDragon ≤ env.fork)
    (h : AcceptedFrom recover env tx a) : ∃ signed, tx.Recovers recover signed a ∧
      ((∃ price v, tx.kind = .legacy price v ∧ (v.toNat = 27 ∨ v.toNat = 28) ∧
          CommitsTo none signed.preimage) ∨
        (∃ price v, tx.kind = .legacy price v ∧
          (v.toNat = 35 + 2 * env.chainId ∨ v.toNat = 36 + 2 * env.chainId) ∧
          CommitsTo (some env.chainId) signed.preimage) ∨
        ∃ chain, tx.namedChain? = some chain ∧ CommitsTo (some chain) signed.preimage ∧
          signed.recovery = tx.recoveryWord.toNat ∧
          ∀ other s gas, tx.senderBy recover env.fork other = .ok a ∧
            tx.approveBy recover { env with chainId := other } s gas =
              tx.approveBy recover env s gas) := by
  have hsender := h.sender_eq
  obtain ⟨signed, hread, hrec⟩ := of_senderBy_ok hsender
  refine ⟨signed, hrec, ?_⟩
  cases hn : tx.namedChain? with
  | some chain =>
    have hsigned := hread.symm.trans (readSignature_of_namedChain hn env.fork env.chainId)
    obtain rfl := Except.ok.inj hsigned
    refine Or.inr (Or.inr ⟨chain, rfl, (SignedFor.typed hn).commitsTo, rfl, ?_⟩)
    intro other s gas
    obtain ⟨hs, happrove⟩ := approveBy_of_namedChain hn recover env other s gas
    exact ⟨hs.trans hsender, happrove⟩
  | none =>
    cases hk : tx.kind with
    | accessList | feeMarket | blob => simp [namedChain?, hk] at hn
    | legacy price v =>
      rw [readSignature, hk] at hread
      dsimp only at hread
      split at hread
      · next hv =>
        have hp : tx.legacyPreimage = .ok (preimage none tx.unsignedItems) := by
          rw [legacyPreimage, legacyFields_eq hk]
          rfl
        rw [readLegacy, hp] at hread
        cases hread
        exact Or.inl ⟨price, v, rfl, by simpa using hv,
          (SignedFor.unprotected (type?_of_legacy hk)).commitsTo⟩
      · rw [if_neg (show ¬ env.fork < Fork.spuriousDragon from Nat.not_lt_of_le hf)] at hread
        obtain ⟨hv, hs⟩ := of_readProtected_ok hk hread
        exact Or.inr (Or.inl ⟨price, v, rfl, hv, hs.commitsTo⟩)

end Acceptance

/-- A transaction that names the given chain, with a signature that was never made: any point whose
first coordinate is two leads to some account. -/
def foreign (chain : BitVec 64) (parity : Word) : Transaction where
  nonce := 0
  gas := 21000
  recipient := some 0
  value := 0
  data := .empty
  kind := .accessList chain 0 [] parity
  r := 2
  s := 1

def onChain (chainId : Nat) : Environment :=
  { (default : Environment) with fork := .berlin, chainId := chainId }

theorem foreign_accepted : ∃ a, AcceptedFrom Secp256k1.recover (onChain 1) (foreign 2 0) a := by
  have hok : ((foreign 2 0).sender .berlin 1).isOk = true := by decide +kernel
  cases h : (foreign 2 0).sender .berlin 1 with
  | ok a => exact ⟨a, Or.inl h⟩
  | error e =>
    rw [h] at hok
    cases hok

/-- A transaction for the second chain is accepted on the first one, from an account that all chains
agree on. -/
theorem chain_of_accepted_foreign : ∃ a, AcceptedFrom Secp256k1.recover (onChain 1) (foreign 2 0) a ∧
    ∀ other, (foreign 2 0).sender .berlin other = .ok a := by
  obtain ⟨a, haccepted⟩ := foreign_accepted
  refine ⟨a, haccepted, fun other => ?_⟩
  obtain ⟨signed, _, ⟨_, _, hk, _⟩ | ⟨_, _, hk, _⟩ | ⟨_, _, _, _, hall⟩⟩ :=
    chain_of_accepted (show Fork.spuriousDragon ≤ (onChain 1).fork by decide) haccepted
  · cases hk
  · cases hk
  · exact (hall other {} 0).1

/-- The chain that a transaction names is not compared with the chain it is in. -/
theorem accepted_on_other_chain : (onChain 1).chainId = 1 ∧ (foreign 2 0).namedChain? = some 2 ∧
    ∃ a, AcceptedFrom Secp256k1.recover (onChain 1) (foreign 2 0) a :=
  ⟨rfl, rfl, foreign_accepted⟩

end ExecutionLayer.Transaction
