import ExecutionLayer.Proofs.State.Emptiness
import ExecutionLayer.Proofs.State.World

/-! # Who owns storage

Accounts and storage are kept apart. Storage is owned if each address that has some also has an
account, and if neither zeros nor empty maps of slots are kept. Every operation on the state keeps
it owned, whether it succeeds or stops halfway.
-/
namespace ExecutionLayer

namespace Storage
variable {storage : Storage} {a b : Address}

def Filled (storage : Storage) : Prop :=
  ∀ (a : Address) (slots : Slots), storage[a]? = some slots → slots ≠ ∅

theorem set_cases (storage : Storage) (a : Address) (key value : Word) :
    storage.set a key value = storage.erase a ∨
      ∃ slots : Slots, slots ≠ ∅ ∧ storage.set a key value = storage.insert a slots := by
  unfold set
  dsimp only
  generalize (if value = 0 then (storage[a]?.getD ∅).erase key
    else (storage[a]?.getD ∅).insert key value) = slots
  by_cases hempty : slots.isEmpty = true
  · exact Or.inl (if_pos hempty)
  · exact Or.inr ⟨slots, fun he => hempty (Std.ExtTreeMap.isEmpty_iff.mpr he), if_neg hempty⟩

theorem Filled.erase (h : storage.Filled) (a : Address) : Filled (storage.erase a) := by
  intro b slots hslots
  rw [Std.ExtTreeMap.getElem?_erase] at hslots
  split at hslots
  · cases hslots
  · exact h b slots hslots

theorem Filled.set (h : storage.Filled) (a : Address) (key value : Word) :
    Filled (storage.set a key value) := by
  rcases set_cases storage a key value with heq | ⟨slots, hne, heq⟩ <;> rw [heq]
  · exact h.erase a
  · intro b slots' hslots
    rw [Std.ExtTreeMap.getElem?_insert] at hslots
    split at hslots
    · cases hslots
      exact hne
    · exact h b slots' hslots

theorem mem_of_mem_set {key value : Word} (h : b ∈ storage.set a key value) :
    a = b ∨ b ∈ storage := by
  rcases set_cases storage a key value with heq | ⟨slots, -, heq⟩ <;> rw [heq] at h
  · exact Or.inr (Std.ExtTreeMap.mem_of_mem_erase h)
  · rw [Std.ExtTreeMap.mem_insert, Std.compare_eq_iff_eq] at h
    exact h

end Storage

namespace State
variable {s t u : State} {a b : Address}

/-- Storage belongs to accounts that exist. No map of slots is empty, and no slot holds zero. -/
structure Owned (s : State) : Prop where
  lives : ∀ a, a ∈ s.storage → s.accountExists a = true
  filled : s.storage.Filled
  noZeros : s.storage.NoZeros

/-- Accounts that existed still do, and storage is owned if it was. -/
structure Upholds (s t : State) : Prop where
  lives : ∀ a, s.accountExists a = true → t.accountExists a = true
  owned : s.Owned → t.Owned

instance : IsPreorder State Upholds where
  refl _ := ⟨fun _ => id, id⟩
  trans _ _ _ h h' := ⟨fun a ha => h'.lives a (h.lives a ha), fun hs => h'.owned (h.owned hs)⟩

theorem Owned.of_storage (h : s.Owned) (hstorage : t.storage = s.storage)
    (hlives : ∀ a, s.accountExists a = true → t.accountExists a = true) : t.Owned := by
  refine ⟨fun a ha => ?_, hstorage ▸ h.filled, hstorage ▸ h.noZeros⟩
  rw [hstorage] at ha
  exact hlives a (h.lives a ha)

theorem upholds_of_storage (hstorage : t.storage = s.storage)
    (hlives : ∀ a, s.accountExists a = true → t.accountExists a = true) : Upholds s t :=
  ⟨hlives, fun hs => hs.of_storage hstorage hlives⟩

theorem upholds_of_content (haccounts : t.accounts = s.accounts)
    (hstorage : t.storage = s.storage) : Upholds s t :=
  upholds_of_storage hstorage fun a ha => by
    rw [accountExists, account?_of_accounts haccounts a]
    exact ha

theorem upholds_setAccount (s : State) (a : Address) (x : Account) :
    Upholds s (s.setAccount a (some x)) :=
  upholds_of_storage rfl fun b hb => by rw [accountExists_setAccount, hb, Bool.or_true]

theorem upholds_modifyAccount (s : State) (a : Address) (f : Account → Account) :
    Upholds s (s.modifyAccount a f) := upholds_setAccount s a _

theorem upholds_touch (s : State) (a : Address) : Upholds s (s.touch a) := by
  unfold touch
  split
  · exact refl s
  · exact upholds_setAccount s a _

theorem upholds_of_addBalance {n : Nat} (h : s.addBalance a n = .ok t) : Upholds s t := by
  obtain ⟨y, rfl⟩ := of_addBalance_ok h
  exact upholds_modifyAccount s a _

theorem upholds_of_withdraw {amount : Word} (h : s.withdraw a amount = .ok t) : Upholds s t := by
  obtain ⟨x, -, h⟩ := of_except_ok h
  exact upholds_of_addBalance h

theorem moveEther_upholds : ∀ (a b : Address) (x : Word), Carries Upholds (moveEther a b x) :=
  carries_moveEther fun s a _ => upholds_modifyAccount s a _

theorem upholds_destroyStorage (s : State) (a : Address) : Upholds s (s.destroyStorage a) := by
  refine ⟨fun _ => id, fun hs => ⟨fun b hb => ?_, hs.filled.erase a, hs.noZeros.erase a⟩⟩
  exact hs.lives b (Std.ExtTreeMap.mem_of_mem_erase hb)

theorem Owned.destroyAccount (h : s.Owned) (a : Address) : (s.destroyAccount a).Owned := by
  refine ⟨fun b hb => ?_, h.filled.erase a, h.noZeros.erase a⟩
  obtain ⟨hne, hmem⟩ := Std.ExtTreeMap.mem_erase.mp hb
  have hab : a ≠ b := fun hab => hne (Std.compare_eq_iff_eq.mpr hab)
  rw [accountExists, account?_destroyAccount, if_neg hab]
  exact h.lives b hmem

theorem Owned.foldl_destroyAccount (h : s.Owned) (l : List Address) :
    (l.foldl State.destroyAccount s).Owned := by
  induction l generalizing s with
  | nil => exact h
  | cons a l ih => exact ih (h.destroyAccount a)

theorem Owned.destroyEmpty (h : s.Owned) (l : List Address) : (s.destroyEmpty l).Owned := by
  unfold State.destroyEmpty
  induction l generalizing s with
  | nil => exact h
  | cons a l ih =>
    rw [List.foldl_cons]
    refine ih ?_
    split
    · exact h.destroyAccount a
    · exact h

theorem upholds_of_setStorage {key value : Word} (h : s.setStorage a key value = .ok t) :
    Upholds s t := by
  unfold setStorage at h
  split at h
  · next hexists =>
    cases h
    refine ⟨fun _ => id, fun hs =>
      ⟨fun b hb => ?_, hs.filled.set a key value, hs.noZeros.set a key value⟩⟩
    rcases Storage.mem_of_mem_set hb with rfl | hb
    · exact hexists
    · exact hs.lives b hb
  · cases h

theorem setStorage_of_exists (h : s.accountExists a = true) (key value : Word) :
    s.setStorage a key value = .ok { s with storage := s.storage.set a key value } :=
  if_pos h

end State

end ExecutionLayer
