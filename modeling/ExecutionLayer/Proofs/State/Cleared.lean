import ExecutionLayer.Evm.Create
import ExecutionLayer.Evm.Step.Storage
import ExecutionLayer.Proofs.State.Payment
import Mathlib.Data.Fintype.Prod

/-! # Refunds for cleared slots

Since Istanbul a slot that is cleared brings a refund, which is taken back when it is filled again.
Refunds are due for the slots that were not empty before the transaction and are empty now.
Snapshots and new accounts do not raise this amount.
-/
namespace ExecutionLayer

namespace Storage

theorem get_eq (storage : Storage) (a : Address) (key : Word) :
    storage.get a key = (storage[a]?.getD ∅)[key]?.getD 0 := by
  unfold get
  cases storage[a]? with
  | none => simp
  | some slots => rfl

def slot? (storage : Storage) (a : Address) (key : Word) : Option Word :=
  (storage[a]?.getD ∅)[key]?

theorem get_eq_slot? (storage : Storage) (a : Address) (key : Word) :
    storage.get a key = (storage.slot? a key).getD 0 := get_eq storage a key

theorem slot?_erase (storage : Storage) (a b : Address) (key : Word) :
    Storage.slot? (storage.erase a) b key = if a = b then none else storage.slot? b key := by
  unfold slot?
  rw [Std.ExtTreeMap.getElem?_erase]
  by_cases h : a = b <;> simp [h]

theorem getD_set (storage : Storage) (a b : Address) (key value : Word) :
    (storage.set a key value)[b]?.getD ∅ =
      if a = b then
        if value = 0 then (storage[a]?.getD ∅).erase key else (storage[a]?.getD ∅).insert key value
      else storage[b]?.getD ∅ := by
  unfold set
  dsimp only
  generalize (if value = 0 then (storage[a]?.getD ∅).erase key
    else (storage[a]?.getD ∅).insert key value) = slots
  by_cases hempty : slots.isEmpty = true
  · rw [if_pos hempty, Std.ExtTreeMap.getElem?_erase, Std.ExtTreeMap.isEmpty_iff.mp hempty]
    by_cases h : a = b <;> simp [h]
  · rw [if_neg hempty, Std.ExtTreeMap.getElem?_insert]
    by_cases h : a = b <;> simp [h]

theorem slot?_set (storage : Storage) (a b : Address) (key key' value : Word) :
    (storage.set a key value).slot? b key' =
      if a = b ∧ key = key' then (if value = 0 then none else some value)
      else storage.slot? b key' := by
  unfold slot?
  rw [getD_set]
  by_cases hab : a = b
  · subst hab
    by_cases hv : value = 0
    · simp only [hv, if_true, true_and, Std.ExtTreeMap.getElem?_erase]
      by_cases hk : key = key' <;> simp [hk]
    · simp only [hv, if_true, if_false, true_and, Std.ExtTreeMap.getElem?_insert]
      by_cases hk : key = key' <;> simp [hk]
  · simp [hab]

theorem get_erase (storage : Storage) (a b : Address) (key : Word) :
    Storage.get (storage.erase a) b key = if a = b then 0 else storage.get b key := by
  rw [get_eq_slot?, get_eq_slot?, slot?_erase]
  split <;> rfl

theorem get_set (storage : Storage) (a b : Address) (key key' value : Word) :
    (storage.set a key value).get b key' =
      if a = b ∧ key = key' then value else storage.get b key' := by
  rw [get_eq_slot?, get_eq_slot?, slot?_set]
  by_cases h : a = b ∧ key = key'
  · rw [if_pos h, if_pos h]
    split
    · exact (by assumption : value = 0).symm
    · rfl
  · rw [if_neg h, if_neg h]

end Storage

namespace State
open Evm

/-- The storage before the transaction: that of the first snapshot, if one is open. -/
def startingStorage (s : State) : Storage := (s.snapshots.getLast?.map Snapshot.storage).getD s.storage

def startValue (s : State) (a : Address) (key : Word) : Word :=
  if s.created.contains a then 0 else s.startingStorage.get a key

theorem startStorage_eq {s : State} {a : Address} {key x : Word}
    (h : s.startStorage a key = .ok x) : s.startValue a key = x := by
  unfold startStorage at h
  unfold startValue startingStorage
  split at h
  · next hc =>
    cases h
    rw [if_pos hc]
  · next hc =>
    rw [if_neg hc]
    split at h
    · next hl =>
      cases h
      rw [hl]
      rfl
    · cases h

/-- What is due for a slot with the given value before the transaction and the given one now. -/
def clearedRefund (fork : Fork) (start now : Word) : Nat :=
  if start ≠ 0 ∧ now = 0 then Gas.storageClearRefund fork else 0

def clearedRefunds (fork : Fork) (s : State) : Nat :=
  if fork < Fork.istanbul then 0
  else ∑ slot : Address × Word,
    clearedRefund fork (s.startValue slot.1 slot.2) (s.getStorage slot.1 slot.2)

variable {fork : Fork} {s t : State}

theorem clearedRefunds_le
    (h : Fork.istanbul ≤ fork → ∀ a key, clearedRefund fork (t.startValue a key) (t.getStorage a key) ≤
      clearedRefund fork (s.startValue a key) (s.getStorage a key)) :
    t.clearedRefunds fork ≤ s.clearedRefunds fork := by
  unfold clearedRefunds
  split
  · exact le_rfl
  · next hf => exact Finset.sum_le_sum fun slot _ => h (Nat.le_of_not_lt hf) slot.1 slot.2

/-- What is due only depends on storage, now and before, and on what was created. The more is
created, the less is due. -/
theorem clearedRefunds_of_same (hs : t.storage = s.storage)
    (hstart : t.startingStorage = s.startingStorage)
    (hc : ∀ a, s.created.contains a → t.created.contains a) :
    t.clearedRefunds fork ≤ s.clearedRefunds fork := by
  refine clearedRefunds_le fun _ a key => ?_
  unfold startValue getStorage
  rw [hs, hstart]
  by_cases ht : t.created.contains a
  · rw [if_pos ht]
    simp [clearedRefund]
  · rw [if_neg ht, if_neg fun h => ht (hc a h)]

theorem clearedRefunds_of_nil (h : s.snapshots = []) : s.clearedRefunds fork = 0 := by
  have hzero (a : Address) (key : Word) :
      clearedRefund fork (s.startValue a key) (s.getStorage a key) = 0 := by
    unfold clearedRefund startValue startingStorage getStorage
    rw [h]
    by_cases hc : s.created.contains a <;> simp [hc]
  unfold clearedRefunds
  split
  · rfl
  · exact Finset.sum_eq_zero fun slot _ => hzero slot.1 slot.2

theorem startingStorage_begin (s : State) : s.begin.startingStorage = s.startingStorage := by
  unfold startingStorage begin
  cases h : s.snapshots with
  | nil => rfl
  | cons snapshot rest => rw [List.getLast?_cons_cons]

theorem clearedRefunds_begin_le (fork : Fork) (s : State) :
    s.begin.clearedRefunds fork ≤ s.clearedRefunds fork :=
  clearedRefunds_of_same rfl (startingStorage_begin s) fun _ => id

theorem sum_add_of_ne {ι : Type} [Fintype ι] [DecidableEq ι] {f g : ι → Nat} {i : ι}
    (h : ∀ j, j ≠ i → g j = f j) : ∑ j, g j + f i = ∑ j, f j + g i := by
  have hrest : ∑ j ∈ Finset.univ.erase i, g j = ∑ j ∈ Finset.univ.erase i, f j :=
    Finset.sum_congr rfl fun j hj => h j (Finset.ne_of_mem_erase hj)
  have hf := Finset.add_sum_erase Finset.univ f (Finset.mem_univ i)
  have hg := Finset.add_sum_erase Finset.univ g (Finset.mem_univ i)
  omega

theorem clearedRefunds_set (fork : Fork) (a : Address) (key value : Word) (hopen : s.snapshots ≠ [])
    (ht : t = { s with storage := s.storage.set a key value }) :
    t.clearedRefunds fork +
        (if fork < Fork.istanbul then 0
          else clearedRefund fork (s.startValue a key) (s.getStorage a key)) =
      s.clearedRefunds fork +
        (if fork < Fork.istanbul then 0 else clearedRefund fork (s.startValue a key) value) := by
  have hstart (b : Address) (k : Word) : t.startValue b k = s.startValue b k := by
    unfold startValue startingStorage
    rw [ht]
    dsimp only
    rw [List.getLast?_eq_some_getLast hopen]
    rfl
  have hget (b : Address) (k : Word) :
      t.getStorage b k = if a = b ∧ key = k then value else s.getStorage b k := by
    unfold getStorage
    rw [ht]
    exact Storage.get_set _ _ _ _ _ _
  unfold clearedRefunds
  split
  · rfl
  · let f (slot : Address × Word) :=
      clearedRefund fork (s.startValue slot.1 slot.2) (s.getStorage slot.1 slot.2)
    let g (slot : Address × Word) :=
      clearedRefund fork (t.startValue slot.1 slot.2) (t.getStorage slot.1 slot.2)
    have hrest (slot : Address × Word) (hne : slot ≠ (a, key)) : g slot = f slot := by
      have hkey : ¬(a = slot.1 ∧ key = slot.2) := fun h => hne (Prod.ext h.1.symm h.2.symm)
      dsimp only [f, g]
      rw [hstart, hget, if_neg hkey]
    have hslot : g (a, key) = clearedRefund fork (s.startValue a key) value := by
      dsimp only [g]
      rw [hstart, hget, if_pos ⟨rfl, rfl⟩]
    rw [← hslot]
    exact sum_add_of_ne hrest

theorem clearedRefunds_prepareAccount_le (fork : Fork) (a : Address) (hopen : s.snapshots ≠ []) :
    (prepareAccount fork a s).clearedRefunds fork ≤ s.clearedRefunds fork := by
  refine clearedRefunds_le fun hf b key => ?_
  have hdao : fork ≠ .daoFork := by
    rintro rfl
    exact absurd hf (by decide)
  have hdragon : Fork.spuriousDragon ≤ fork := Nat.le_trans (by decide) hf
  have hp : prepareAccount fork a s =
      ((s.destroyStorage a).markCreated a).incrementNonce a := by
    unfold prepareAccount
    simp only [hdao, hf, hdragon, ↓reduceIte]
  have hcreated : (prepareAccount fork a s).created = s.created.insert a := by
    rw [hp]
    rfl
  have hstart : (prepareAccount fork a s).startingStorage = s.startingStorage := by
    rw [hp]
    unfold startingStorage
    change (Option.map _ s.snapshots.getLast?).getD _ = _
    rw [List.getLast?_eq_some_getLast hopen]
    rfl
  have hget : (prepareAccount fork a s).getStorage b key =
      if a = b then 0 else s.getStorage b key := by
    rw [hp]
    exact Storage.get_erase s.storage a b key
  unfold startValue
  rw [hcreated, hstart, hget, Std.ExtTreeSet.contains_insert]
  by_cases h : a = b
  · subst h
    simp [clearedRefund]
  · have hc : ¬compare a b = .eq := fun he => h (Std.LawfulEqCmp.eq_of_compare he)
    simp [h, hc]

end State

end ExecutionLayer
