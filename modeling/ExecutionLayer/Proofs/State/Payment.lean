import ExecutionLayer.Proofs.State.Balance

/-! # Payments

A payment changes two balances. No other account is touched by it, and only the payer may have less
afterwards. Every account keeps its code, and no account vanishes.
-/
namespace ExecutionLayer.State
variable {s t u : State} {a b : Address}

structure SameCode (s t : State) : Prop where
  code : ∀ a, (t.account a).code = (s.account a).code
  lives : ∀ a, s.accountExists a → t.accountExists a

theorem SameCode.refl (s : State) : SameCode s s := ⟨fun _ => rfl, fun _ => id⟩

theorem SameCode.trans (h : SameCode s t) (h' : SameCode t u) : SameCode s u :=
  ⟨fun a => (h'.code a).trans (h.code a), fun a ha => h'.lives a (h.lives a ha)⟩

/-- Besides, no more accounts are created. -/
structure Remains (s t : State) : Prop extends SameCode s t where
  created : t.created = s.created

instance : IsPreorder State Remains where
  refl s := ⟨.refl s, rfl⟩
  trans _ _ _ h h' := ⟨h.toSameCode.trans h'.toSameCode, h'.created.trans h.created⟩

theorem SameCode.of_accounts (h : t.accounts = s.accounts) : SameCode s t := by
  have haccount (a : Address) : t.account? a = s.account? a := by
    rw [account?, account?, h]
  refine ⟨fun a => ?_, fun a ha => ?_⟩
  · rw [account, account, haccount]
  · rw [accountExists, haccount]
    exact ha

theorem accountExists_setAccount (x : Account) :
    (s.setAccount a (some x)).accountExists b = (a = b || s.accountExists b) := by
  unfold setAccount accountExists account?
  dsimp only
  rw [Std.ExtTreeMap.getElem?_insert]
  by_cases h : a = b
  · subst h
    simp
  · have hc : ¬compare a b = .eq := fun he => h (Std.LawfulEqCmp.eq_of_compare he)
    simp [h, hc]

theorem sameCode_modifyAccount {f : Account → Account} (hf : ∀ x, (f x).code = x.code) :
    SameCode s (s.modifyAccount a f) := by
  refine ⟨fun b => ?_, fun b hb => ?_⟩
  · rw [account_modifyAccount]
    split
    · next h => rw [hf, h]
    · rfl
  · rw [modifyAccount, accountExists_setAccount, hb, Bool.or_true]

theorem sameCode_setBalance (x : Word) : SameCode s (s.setBalance a x) :=
  sameCode_modifyAccount fun _ => rfl

theorem sameCode_incrementNonce : SameCode s (s.incrementNonce a) :=
  sameCode_modifyAccount fun _ => rfl

theorem accountExists_setCode {code : Bytes} (h : s.accountExists b) :
    (s.setCode a code).accountExists b := by
  rw [setCode, modifyAccount, accountExists_setAccount, h, Bool.or_true]

theorem account_touch (s : State) (a b : Address) : (s.touch a).account b = s.account b := by
  unfold touch
  split
  · rfl
  · next h =>
    have hn : s.account? a = none := by simpa [accountExists] using h
    rw [account_setAccount]
    split
    · next hab =>
      subst hab
      rw [account, hn]
      rfl
    · rfl

theorem accountExists_touch (s : State) (a : Address) : (s.touch a).accountExists a := by
  unfold touch
  split
  · next h => exact h
  · simp [accountExists_setAccount]

theorem sameCode_touch : SameCode s (s.touch a) := by
  refine ⟨fun b => by rw [account_touch], fun b hb => ?_⟩
  unfold touch
  split
  · exact hb
  · rw [accountExists_setAccount, hb, Bool.or_true]

theorem remains_setBalance (s : State) (a : Address) (x : Word) : Remains s (s.setBalance a x) :=
  ⟨sameCode_setBalance x, rfl⟩

theorem sameCode_of_moveEther {x : Word} (h : moveEther a b x s = .ok () t) : SameCode s t :=
  ((carries_moveEther remains_setBalance a b x).of_ok h).toSameCode

theorem account?_setAccount_of_ne (x : Option Account) (h : a ≠ b) :
    (s.setAccount a x).account? b = s.account? b := by
  have hc : ¬compare a b = .eq := fun he => h (Std.LawfulEqCmp.eq_of_compare he)
  cases x with
  | none => simp only [setAccount, account?, Std.ExtTreeMap.getElem?_erase, hc, ↓reduceIte]
  | some x => simp only [setAccount, account?, Std.ExtTreeMap.getElem?_insert, hc, ↓reduceIte]

theorem account?_modifyAccount_of_ne {f : Account → Account} (h : a ≠ b) :
    (s.modifyAccount a f).account? b = s.account? b := account?_setAccount_of_ne _ h

theorem account_of_account? (h : t.account? a = s.account? a) : t.account a = s.account a := by
  rw [account, account, h]

theorem account?_of_accounts (h : t.accounts = s.accounts) (a : Address) :
    t.account? a = s.account? a := by
  rw [account?, account?, h]

theorem nonce_setBalance (s : State) (a : Address) (x : Word) (b : Address) :
    ((s.setBalance a x).account b).nonce = (s.account b).nonce := by
  rw [setBalance, account_modifyAccount]
  split
  · next h => rw [h]
  · rfl

theorem nonce_incrementNonce (s : State) (a b : Address) :
    ((s.incrementNonce a).account b).nonce =
      if a = b then (s.account b).nonce + 1 else (s.account b).nonce := by
  rw [incrementNonce, account_modifyAccount]
  split
  · next h => rw [h]
  · rfl

theorem nonce_setCode (s : State) (a : Address) (code : Bytes) (b : Address) :
    ((s.setCode a code).account b).nonce = (s.account b).nonce := by
  rw [setCode, account_modifyAccount]
  split
  · next h => rw [h]
  · rfl

theorem code_setCode_of_ne (code : Bytes) (h : a ≠ b) :
    ((s.setCode a code).account b).code = (s.account b).code := by
  rw [setCode, account_modifyAccount, if_neg h]

/-- Nothing but two balances has changed, and only the first account may have less. -/
structure Pays (s : State) (payer payee : Address) (t : State) : Prop where
  rest : t = { s with accounts := t.accounts }
  sameCode : SameCode s t
  nonce : ∀ a, (t.account a).nonce = (s.account a).nonce
  others : ∀ a, a ≠ payer → a ≠ payee → t.account? a = s.account? a
  balance : ∀ a, a ≠ payer → s.balance a ≤ t.balance a

theorem Pays.trans (h : Pays s a b t) (h' : Pays t a b u) : Pays s a b u where
  rest := by rw [h'.rest, h.rest]
  sameCode := h.sameCode.trans h'.sameCode
  nonce c := (h'.nonce c).trans (h.nonce c)
  others c ha hb := (h'.others c ha hb).trans (h.others c ha hb)
  balance c hc := (h.balance c hc).trans (h'.balance c hc)

theorem pays_setBalance (s : State) (a b : Address) (x : Word) : Pays s a b (s.setBalance a x) where
  rest := rfl
  sameCode := sameCode_setBalance x
  nonce := nonce_setBalance s a x
  others _ ha _ := account?_modifyAccount_of_ne (Ne.symm ha)
  balance c hc := by rw [balance_setBalance, if_neg (Ne.symm hc)]

theorem pays_of_addBalance {n : Nat} (h : s.addBalance b n = .ok t) (a : Address) :
    Pays s a b t := by
  by_cases hn : s.balance b + n < Word.limit
  · rw [addBalance_of_lt hn] at h
    cases h
    refine ⟨rfl, sameCode_setBalance _, nonce_setBalance s b _, fun c _ hc =>
      account?_modifyAccount_of_ne (Ne.symm hc), fun c _ => ?_⟩
    rw [balance_setBalance]
    split
    · next hc =>
      rw [toNat_ofNat_of_lt hn, hc]
      omega
    · exact le_rfl
  · rw [addBalance_of_le (Nat.le_of_not_lt hn)] at h
    cases h

theorem pays_of_moveEther {x : Word} (h : moveEther a b x s = .ok () t) : Pays s a b t := by
  obtain ⟨_, s₁, h₁, h₂⟩ := of_seq_ok h
  rw [of_subBalance_ok (step_eq_ok.mp h₁)] at h₂
  exact (pays_setBalance s a b _).trans (pays_of_addBalance (step_eq_ok.mp h₂) a)

end ExecutionLayer.State
