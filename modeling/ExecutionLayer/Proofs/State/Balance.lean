import ExecutionLayer.Proofs.Sequence
import Mathlib.Algebra.BigOperators.Group.Finset.Basic
import Mathlib.Algebra.GroupWithZero.Nat
import Mathlib.Algebra.Order.BigOperators.Group.Finset
import Mathlib.Data.FinEnum

/-! # The sum of all balances

A change of one account changes the sum by the difference of its balances. Two accounts together
hold at most the sum, so that ether can be moved between them without an overflow as long as the
sum of all balances is a word.
-/
namespace ExecutionLayer.State
variable {t : State} {n : Nat} {x : Word}

variable (s : State) (a b : Address)

theorem account_setAccount (x : Option Account) :
    (s.setAccount a x).account b = if a = b then x.getD .empty else s.account b := by
  cases x with
  | none =>
    simp only [setAccount, account, account?, Std.ExtTreeMap.getElem?_erase, Std.compare_eq_iff_eq]
    split <;> rfl
  | some x =>
    simp only [setAccount, account, account?, Std.ExtTreeMap.getElem?_insert,
      Std.compare_eq_iff_eq]
    split <;> rfl

theorem account_modifyAccount (f : Account → Account) :
    (s.modifyAccount a f).account b = if a = b then f (s.account a) else s.account b := by
  rw [modifyAccount, account_setAccount, Option.getD_some]

def balance : Nat := (s.account a).balance.toNat

@[simp] theorem balance_setBalance (x : Word) :
    (s.setBalance a x).balance b = if a = b then x.toNat else s.balance b := by
  rw [balance, setBalance, account_modifyAccount]
  split <;> rfl

@[simp] theorem balance_incrementNonce : (s.incrementNonce a).balance b = s.balance b := by
  rw [balance, incrementNonce, account_modifyAccount]
  split
  · next h => rw [h]; rfl
  · rfl

@[simp] theorem balance_setCode (code : Bytes) : (s.setCode a code).balance b = s.balance b := by
  rw [balance, setCode, account_modifyAccount]
  split
  · next h => rw [h]; rfl
  · rfl

@[simp] theorem balance_touch : (s.touch a).balance b = s.balance b := by
  unfold touch
  split
  · rfl
  · next h =>
    rw [balance, account_setAccount]
    split
    · next hab =>
      subst hab
      have hn : s.account? a = none := by simpa [accountExists] using h
      rw [balance, account, hn]
      rfl
    · rfl

@[simp] theorem balance_destroyAccount :
    (s.destroyAccount a).balance b = if a = b then 0 else s.balance b := by
  rw [balance, destroyAccount, account_setAccount]
  split <;> rfl

def total : Nat := (s.accounts.toList.map fun e => e.2.balance.toNat).sum

theorem nodup_toList : (s.accounts.toList.map Prod.fst).Nodup := by
  refine List.pairwise_map.mpr (Std.ExtTreeMap.distinct_keys_toList.imp fun hne he => hne ?_)
  exact Std.compare_eq_iff_eq.mpr he

theorem total_eq_sum : s.total = ∑ a : Address, s.balance a := by
  have hkeys : s.total = ((s.accounts.toList.map Prod.fst).map s.balance).sum := by
    rw [total, List.map_map]
    refine congrArg List.sum (List.map_congr_left fun e he => ?_)
    have hg : s.accounts[e.1]? = some e.2 := Std.ExtTreeMap.mem_toList_iff_getElem?_eq_some.mp he
    simp [balance, account, account?, hg]
  rw [hkeys, ← List.sum_toFinset _ s.nodup_toList]
  refine Finset.sum_subset (Finset.subset_univ _) fun a _ ha => ?_
  -- an address that is not listed has no account
  have hn : s.accounts[a]? = none := by
    cases hg : s.accounts[a]? with
    | none => rfl
    | some x =>
      refine absurd (List.mem_toFinset.mpr (List.mem_map.mpr ⟨(a, x), ?_, rfl⟩)) ha
      exact Std.ExtTreeMap.mem_toList_iff_getElem?_eq_some.mpr hg
  simp [balance, account, account?, hn, Account.empty]

variable {s a b}

theorem total_congr (h : ∀ a, t.balance a = s.balance a) : t.total = s.total := by
  rw [total_eq_sum, total_eq_sum]
  exact Finset.sum_congr rfl fun a _ => h a

theorem total_update {x : Nat} (h : ∀ b, t.balance b = if a = b then x else s.balance b) :
    t.total + s.balance a = s.total + x := by
  have hs := Finset.add_sum_erase Finset.univ s.balance (Finset.mem_univ a)
  have ht := Finset.add_sum_erase Finset.univ t.balance (Finset.mem_univ a)
  have he : ∑ b ∈ Finset.univ.erase a, t.balance b = ∑ b ∈ Finset.univ.erase a, s.balance b :=
    Finset.sum_congr rfl fun b hb => by
      rw [h, if_neg (Finset.ne_of_mem_erase hb).symm]
  rw [he, h, if_pos rfl] at ht
  rw [total_eq_sum, total_eq_sum]
  omega

theorem balance_le_total : s.balance a ≤ s.total := by
  rw [total_eq_sum]
  exact Finset.single_le_sum (fun _ _ => Nat.zero_le _) (Finset.mem_univ a)

theorem balance_add_balance_le_total (h : a ≠ b) : s.balance a + s.balance b ≤ s.total := by
  rw [total_eq_sum, ← Finset.add_sum_erase Finset.univ s.balance (Finset.mem_univ a)]
  exact Nat.add_le_add_left (Finset.single_le_sum (fun _ _ => Nat.zero_le _)
    (Finset.mem_erase.mpr ⟨h.symm, Finset.mem_univ b⟩)) _

theorem total_setBalance (s : State) (a : Address) (x : Word) :
    (s.setBalance a x).total + s.balance a = s.total + x.toNat :=
  total_update (s.balance_setBalance a · x)

theorem total_setBalance_zero_le (s : State) (a : Address) : (s.setBalance a 0).total ≤ s.total := by
  have h := total_setBalance s a 0
  have hz : (0 : Word).toNat = 0 := rfl
  omega

theorem toNat_ofNat_of_lt (h : n < Word.limit) : (BitVec.ofNat 256 n).toNat = n := by
  rw [BitVec.toNat_ofNat]
  exact Nat.mod_eq_of_lt h

theorem total_pay_then_empty_le (h : s.balance b + s.balance a < Word.limit) :
    ((s.setBalance b (.ofNat 256 (s.balance b + s.balance a))).setBalance a 0).total ≤ s.total := by
  have hpaid := total_setBalance s b (.ofNat 256 (s.balance b + s.balance a))
  have hempty := total_setBalance (s.setBalance b (.ofNat 256 (s.balance b + s.balance a))) a 0
  have hz : (0 : Word).toNat = 0 := rfl
  rw [toNat_ofNat_of_lt h] at hpaid
  rw [balance_setBalance, toNat_ofNat_of_lt h] at hempty
  split at hempty <;> omega

theorem total_destroyAccount (s : State) (a : Address) :
    (s.destroyAccount a).total + s.balance a = s.total := total_update (s.balance_destroyAccount a)

theorem total_foldl_destroyAccount_le (l : List Address) (s : State) :
    (l.foldl destroyAccount s).total ≤ s.total := by
  induction l generalizing s with
  | nil => exact le_rfl
  | cons a l ih =>
    have h := total_destroyAccount s a
    exact (ih (s.destroyAccount a)).trans (by omega)

theorem balance_of_existsAndIsEmpty (h : s.existsAndIsEmpty a) : s.balance a = 0 := by
  unfold existsAndIsEmpty at h
  unfold balance account
  cases hx : s.account? a with
  | none => rfl
  | some x =>
    rw [hx] at h
    simp only [Option.any_some, Account.isEmpty, Bool.and_eq_true, decide_eq_true_eq] at h
    rw [Option.getD_some, h.2]
    rfl

theorem total_destroyEmpty (l : List Address) (s : State) : (s.destroyEmpty l).total = s.total := by
  unfold destroyEmpty
  induction l generalizing s with
  | nil => rfl
  | cons a l ih =>
    rw [List.foldl_cons, ih]
    split
    · next he =>
      have h := total_destroyAccount s a
      have hb := balance_of_existsAndIsEmpty he
      omega
    · rfl

theorem addBalance_of_lt (h : s.balance a + n < Word.limit) :
    s.addBalance a n = .ok (s.setBalance a (.ofNat 256 (s.balance a + n))) := by
  change (do let x ← Word.ofNat? (s.balance a + n); return s.setBalance a x) = _
  rw [Word.ofNat?, if_pos h]
  rfl

theorem addBalance_of_le (h : Word.limit ≤ s.balance a + n) :
    s.addBalance a n = .error .overflow := by
  change (do let x ← Word.ofNat? (s.balance a + n); return s.setBalance a x) = _
  rw [Word.ofNat?, if_neg (by omega)]
  rfl

theorem of_addBalance_ok (h : s.addBalance a n = .ok t) : ∃ y, t = s.setBalance a y := by
  obtain ⟨y, -, h⟩ := of_except_ok h
  cases h
  exact ⟨y, rfl⟩

theorem of_subBalance_ok (h : s.subBalance a x = .ok t) :
    t = s.setBalance a ((s.account a).balance - x) := by
  unfold subBalance at h
  dsimp only at h
  split at h
  · cases h
  · cases h
    rfl

theorem step_eq_ok {f : State → Except Fault State} : step f s = .ok () t ↔ f s = .ok t := by
  unfold step
  cases f s with
  | ok t' => simp
  | error e => simp

theorem moveEther_accounts (h : moveEther a b x s = .ok () t) :
    t = { s with accounts := t.accounts } := by
  obtain ⟨_, s₁, h₁, h₂⟩ := of_seq_ok h
  obtain ⟨y, rfl⟩ := of_addBalance_ok (step_eq_ok.mp h₂)
  rw [of_subBalance_ok (step_eq_ok.mp h₁)]
  rfl

section Carries
variable {R : State → State → Prop} [IsPreorder State R]

theorem carries_step {f : State → Except Fault State} (h : ∀ {s t}, f s = .ok t → R s t) :
    Carries R (step f) := by
  refine ⟨fun s => ?_⟩
  unfold step
  split
  · next hf => exact h hf
  · exact refl s

variable (hR : ∀ s a y, R s (s.setBalance a y))
include hR

theorem carries_addBalance (a : Address) (n : Nat) : Carries R (step (·.addBalance a n)) :=
  carries_step fun h => by
    obtain ⟨y, rfl⟩ := of_addBalance_ok h
    exact hR _ a y

theorem carries_moveEther (a b : Address) (x : Word) : Carries R (moveEther a b x) :=
  Carries.bind (carries_step fun h => by rw [of_subBalance_ok h]; exact hR _ a _) fun _ =>
    carries_addBalance hR b _

end Carries

theorem addBalance_of_total_lt (h : s.total + n < Word.limit) :
    ∃ t, s.addBalance a n = .ok t ∧ t = { s with accounts := t.accounts } ∧
      t.total = s.total + n := by
  have hb : s.balance a ≤ s.total := balance_le_total
  refine ⟨_, addBalance_of_lt (by omega), rfl, ?_⟩
  have ht := total_setBalance s a (.ofNat 256 (s.balance a + n))
  rw [toNat_ofNat_of_lt (by omega)] at ht
  omega

theorem subBalance_of_le (h : x.toNat ≤ s.balance a) :
    ∃ t, s.subBalance a x = .ok t ∧ t = { s with accounts := t.accounts } ∧
      t.total + x.toNat = s.total := by
  have hle : x.toNat ≤ (s.account a).balance.toNat := h
  refine ⟨s.setBalance a ((s.account a).balance - x), ?_, rfl, ?_⟩
  · unfold subBalance
    dsimp only
    rw [if_neg (by omega)]
  · have ht := total_setBalance s a ((s.account a).balance - x)
    rw [BitVec.toNat_sub_of_le hle, balance] at ht
    omega

theorem moveEther_of_le (hT : s.total < Word.limit) (h : x.toNat ≤ s.balance a) :
    ∃ t, moveEther a b x s = .ok () t ∧ t = { s with accounts := t.accounts } ∧
      t.total = s.total := by
  obtain ⟨s₁, hsub, hs₁, htotal₁⟩ := subBalance_of_le h
  obtain ⟨t, hadd, ht, htotal⟩ := addBalance_of_total_lt (s := s₁) (a := b) (n := x.toNat) (by omega)
  refine ⟨t, ?_, ?_, by omega⟩
  · have hfirst : step (·.subBalance a x) s = .ok () s₁ := by rw [step, hsub]
    rw [moveEther, seq_of_ok hfirst, step, hadd]
  · rw [ht, hs₁]

end ExecutionLayer.State
