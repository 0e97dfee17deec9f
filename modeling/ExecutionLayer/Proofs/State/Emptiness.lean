import ExecutionLayer.Proofs.State.Payment

/-! # Empty accounts

An account without nonce, code and balance is empty. Which accounts exist and are empty in the end
is told from those that were in the beginning and those that have been dealt with in between.
-/
namespace ExecutionLayer.State
variable {s t u : State} {a b : Address} {P Q : Address → Prop}

def Tidy (s : State) : Prop := ∀ a, s.existsAndIsEmpty a = false

/-- Only accounts as given have become empty. -/
def EmptiesOnly (P : Address → Prop) (s t : State) : Prop :=
  ∀ a, t.existsAndIsEmpty a = true → s.existsAndIsEmpty a = true ∨ P a

theorem EmptiesOnly.trans (h : EmptiesOnly P s t) (h' : EmptiesOnly P t u) :
    EmptiesOnly P s u := fun a ha => (h' a ha).elim (h a) Or.inr

theorem EmptiesOnly.mono (h : EmptiesOnly P s t) (hPQ : ∀ a, P a → Q a) : EmptiesOnly Q s t :=
  fun a ha => (h a ha).imp_right (hPQ a)

theorem EmptiesOnly.tidy (h : EmptiesOnly (fun _ => False) s t) (hs : s.Tidy) : t.Tidy := by
  intro a
  by_contra ha
  rcases h a (by simpa using ha) with hempty | hf
  · rw [hs a] at hempty
    cases hempty
  · exact hf

theorem existsAndIsEmpty_of_account? (h : t.account? a = s.account? a) :
    t.existsAndIsEmpty a = s.existsAndIsEmpty a := by
  rw [existsAndIsEmpty, existsAndIsEmpty, h]

theorem emptiesOnly_of_accounts (h : t.accounts = s.accounts) : EmptiesOnly P s t := fun a ha =>
  Or.inl (existsAndIsEmpty_of_account? (account?_of_accounts h a) ▸ ha)

theorem EmptiesOnly.refl (s : State) : EmptiesOnly P s s := emptiesOnly_of_accounts rfl

theorem emptiesOnly_of_others (h : ∀ a, a ≠ b → t.account? a = s.account? a)
    (hb : t.existsAndIsEmpty b = true → P b) : EmptiesOnly P s t := by
  intro a ha
  by_cases hab : a = b
  · exact Or.inr (hab ▸ hb (hab ▸ ha))
  · exact Or.inl (existsAndIsEmpty_of_account? (h a hab) ▸ ha)

theorem marks_of_existsAndIsEmpty (h : s.existsAndIsEmpty a = true) :
    (s.account a).nonce = 0 ∧ (s.account a).code.size = 0 := by
  unfold existsAndIsEmpty at h
  unfold account
  cases hx : s.account? a with
  | none => exact ⟨rfl, rfl⟩
  | some x =>
    rw [hx] at h
    simp only [Option.any_some, Account.isEmpty, Bool.and_eq_true, decide_eq_true_eq] at h
    exact h.1

theorem not_empty_of_hasCodeOrNonce (h : s.hasCodeOrNonce a = true) :
    ¬s.existsAndIsEmpty a = true := by
  intro he
  obtain ⟨hnonce, hcode⟩ := marks_of_existsAndIsEmpty he
  simp [hasCodeOrNonce, Account.hasCodeOrNonce, hnonce, hcode] at h

theorem emptiesOnly_incrementNonce (s : State) (a : Address) :
    EmptiesOnly P s (s.incrementNonce a) := by
  refine emptiesOnly_of_others (b := a) (fun b hb => account?_modifyAccount_of_ne (Ne.symm hb))
    fun he => absurd (marks_of_existsAndIsEmpty he).1 ?_
  rw [nonce_incrementNonce, if_pos rfl]
  omega

theorem emptiesOnly_setCode (s : State) (a : Address) (code : Bytes) :
    EmptiesOnly (· = a) s (s.setCode a code) :=
  emptiesOnly_of_others (fun _ hb => account?_modifyAccount_of_ne (Ne.symm hb)) fun _ => rfl

theorem emptiesOnly_touch (s : State) (a : Address) : EmptiesOnly (· = a) s (s.touch a) := by
  refine emptiesOnly_of_others (fun b hb => ?_) fun _ => rfl
  unfold touch
  split
  · rfl
  · exact account?_setAccount_of_ne _ (Ne.symm hb)

theorem emptiesOnly_setBalance {x : Word} (hx : x ≠ 0) (s : State) (a : Address) :
    EmptiesOnly P s (s.setBalance a x) := by
  refine emptiesOnly_of_others (b := a) (fun b hb => account?_modifyAccount_of_ne (Ne.symm hb))
    fun he => absurd (balance_of_existsAndIsEmpty he) ?_
  rw [balance_setBalance, if_pos rfl]
  intro h
  exact hx (BitVec.eq_of_toNat_eq h)

theorem Pays.emptiesOnly (h : Pays s a b t) (ha : s.hasCodeOrNonce a = true) :
    EmptiesOnly (· = b) s t := by
  have ha' : t.hasCodeOrNonce a = true := by
    simp only [hasCodeOrNonce, Account.hasCodeOrNonce] at ha ⊢
    rw [h.nonce a, h.sameCode.code a]
    exact ha
  intro c hc
  by_cases hcb : c = b
  · exact Or.inr hcb
  · have hca : c ≠ a := by
      rintro rfl
      exact not_empty_of_hasCodeOrNonce ha' hc
    exact Or.inl (existsAndIsEmpty_of_account? (h.others c hca hcb) ▸ hc)

theorem emptiesOnly_addBalance {n : Nat} (h : s.addBalance a n = .ok t) (hn : n ≠ 0) :
    EmptiesOnly P s t := by
  by_cases hlt : s.balance a + n < Word.limit
  · rw [addBalance_of_lt hlt] at h
    cases h
    refine emptiesOnly_setBalance (fun hx => ?_) s a
    have hz := congrArg BitVec.toNat hx
    rw [toNat_ofNat_of_lt hlt] at hz
    exact hn (Nat.eq_zero_of_add_eq_zero_left hz)
  · rw [addBalance_of_le (Nat.le_of_not_lt hlt)] at h
    cases h

theorem account?_destroyAccount (s : State) (a b : Address) :
    (s.destroyAccount a).account? b = if a = b then none else s.account? b := by
  split
  · next h =>
    subst h
    exact Std.ExtTreeMap.getElem?_erase_self
  · next h => exact account?_setAccount_of_ne none h

theorem account_destroyAccount (s : State) (a b : Address) :
    (s.destroyAccount a).account b = if a = b then .empty else s.account b := by
  rw [account, account?_destroyAccount]
  split <;> rfl

theorem of_existsAndIsEmpty_destroyAccount (h : (s.destroyAccount a).existsAndIsEmpty b = true) :
    s.existsAndIsEmpty b = true ∧ a ≠ b := by
  rw [existsAndIsEmpty, account?_destroyAccount] at h
  split at h
  · cases h
  · next hab => exact ⟨h, hab⟩

theorem emptiesOnly_foldl_destroyAccount (l : List Address) (s : State) :
    EmptiesOnly P s (l.foldl destroyAccount s) := by
  induction l generalizing s with
  | nil => exact .refl s
  | cons b l ih =>
    exact EmptiesOnly.trans (fun a ha => Or.inl (of_existsAndIsEmpty_destroyAccount ha).1) (ih _)

theorem of_existsAndIsEmpty_destroyEmpty {l : List Address}
    (h : (s.destroyEmpty l).existsAndIsEmpty a = true) : s.existsAndIsEmpty a = true ∧ a ∉ l := by
  unfold destroyEmpty at h
  induction l generalizing s with
  | nil => exact ⟨h, List.not_mem_nil⟩
  | cons b l ih =>
    rw [List.foldl_cons] at h
    obtain ⟨hempty, hl⟩ := ih h
    split at hempty
    · obtain ⟨hempty, hb⟩ := of_existsAndIsEmpty_destroyAccount hempty
      exact ⟨hempty, List.not_mem_cons_of_ne_of_not_mem (Ne.symm hb) hl⟩
    · next hb =>
      refine ⟨hempty, List.not_mem_cons_of_ne_of_not_mem ?_ hl⟩
      rintro rfl
      exact hb hempty

theorem EmptiesOnly.tidy_destroyEmpty {l : List Address} (h : EmptiesOnly (· ∈ l) s t)
    (hs : s.Tidy) : (t.destroyEmpty l).Tidy := by
  have hnone : EmptiesOnly (fun _ => False) s (t.destroyEmpty l) := by
    intro a ha
    obtain ⟨hempty, hl⟩ := of_existsAndIsEmpty_destroyEmpty ha
    exact (h a hempty).imp_right hl
  exact hnone.tidy hs

end ExecutionLayer.State
