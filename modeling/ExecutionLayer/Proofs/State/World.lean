import ExecutionLayer.Proofs.State.Cleared
import ExecutionLayer.Proofs.State.Root
import Mathlib.Data.List.Perm.Basic
import Mathlib.Logic.Function.Basic

/-! # What a state holds

The world is what can be read: accounts, storage and transient storage, each as a function. The root
of a state is told from its world, as long as no slot is kept that holds zero.
-/
namespace ExecutionLayer
open Trie (placeAll)

section Entries
variable {w : Nat} {β : Type} {f : BitVec w → Option β} {l l' : List (BitVec w × β)}

/-- The list has the entries of the function in the order of their keys. -/
structure Lists (f : BitVec w → Option β) (l : List (BitVec w × β)) : Prop where
  sorted : l.Pairwise fun a b => compare a.1 b.1 = .lt
  mem : ∀ key value, (key, value) ∈ l ↔ f key = some value

theorem Lists.nodup (h : Lists f l) : l.Nodup := by
  refine h.sorted.imp fun hlt heq => ?_
  subst heq
  simp at hlt

theorem Lists.unique (h : Lists f l) (h' : Lists f l') : l = l' := by
  have hperm : l.Perm l' := (List.perm_ext_iff_of_nodup h.nodup h'.nodup).mpr
    fun e => (h.mem e.1 e.2).trans (h'.mem e.1 e.2).symm
  have hasymm (a b : BitVec w × β) (hab : compare a.1 b.1 = .lt) (hba : compare b.1 a.1 = .lt) :
      a = b := absurd hba (Std.OrientedCmp.not_lt_of_lt hab)
  exact hperm.eq_of_pairwise (fun a b _ _ => hasymm a b) h.sorted h'.sorted

theorem lists_toList (m : Std.ExtTreeMap (BitVec w) β) : Lists (fun key => m[key]?) m.toList :=
  ⟨Std.ExtTreeMap.ordered_keys_toList,
    fun _ _ => Std.ExtTreeMap.mem_toList_iff_getElem?_eq_some⟩

open Classical in
noncomputable def entries (f : BitVec w → Option β) : List (BitVec w × β) :=
  if h : ∃ l, Lists f l then h.choose else []

theorem Lists.entries_eq (h : Lists f l) : entries f = l := by
  have hex : ∃ l, Lists f l := ⟨l, h⟩
  rw [entries, dif_pos hex]
  exact hex.choose_spec.unique h

end Entries

namespace Storage

def NoZeros (storage : Storage) : Prop := ∀ a key, storage.slot? a key ≠ some 0

variable {storage : Storage}

theorem NoZeros.slot?_eq (h : storage.NoZeros) (a : Address) (key : Word) :
    storage.slot? a key = if storage.get a key = 0 then none else some (storage.get a key) := by
  have hne := h a key
  rw [get_eq_slot?]
  cases hslot : storage.slot? a key with
  | none => rfl
  | some value =>
    rw [hslot] at hne
    rw [Option.getD_some, if_neg fun hz => hne (congrArg some hz)]

theorem slot?_empty (a : Address) (key : Word) : (∅ : Storage).slot? a key = none := by
  simp [slot?]

theorem NoZeros.erase (h : storage.NoZeros) (a : Address) : NoZeros (storage.erase a) := by
  intro b key
  rw [slot?_erase]
  split
  · simp
  · exact h b key

theorem NoZeros.set (h : storage.NoZeros) (a : Address) (key value : Word) :
    NoZeros (storage.set a key value) := by
  intro b key'
  rw [slot?_set]
  split
  · split
    · simp
    · next hv => simpa using hv
  · exact h b key'

end Storage

/-- All that can be read. -/
structure World where
  accounts : Address → Option Account
  storage : Address → Word → Word
  transient : Address → Word → Word

namespace World

def slots (w : World) (a : Address) (key : Word) : Option Word :=
  if w.storage a key = 0 then none else some (w.storage a key)

noncomputable def storageRoot (hash : Bytes → Hash) (w : World) (a : Address) : Hash :=
  Trie.Node.root hash (Trie.build hash (placeAll hash true
    ((entries (w.slots a)).map fun e => (fixedBytes e.1, Rlp.encode (.ofWord e.2)))))

noncomputable def root (hash : Bytes → Hash) (w : World) : Hash :=
  Trie.Node.root hash (Trie.build hash (placeAll hash true
    ((entries w.accounts).map fun e =>
      (fixedBytes e.1, (e.2.encode hash (w.storageRoot hash e.1)).toList))))

def ofMaps (accounts : Accounts) (storage transient : Storage) : World where
  accounts a := accounts[a]?
  storage := storage.get
  transient := transient.get

variable {s : State} (hash : Bytes → Hash) (transient : Storage)

theorem storageRoot_ofMaps (h : s.storage.NoZeros) (a : Address) :
    (ofMaps s.accounts s.storage transient).storageRoot hash a = s.storageHash hash a := by
  have hslots : (ofMaps s.accounts s.storage transient).slots a =
      fun key => (s.slotsOf a)[key]? := funext fun key => (h.slot?_eq a key).symm
  rw [storageRoot, hslots, (lists_toList (s.slotsOf a)).entries_eq, State.storageHash_eq,
    State.slotPairs]

theorem root_ofMaps (h : s.storage.NoZeros) :
    (ofMaps s.accounts s.storage transient).root hash = s.hashAll hash := by
  have haccounts : entries (ofMaps s.accounts s.storage transient).accounts = s.accounts.toList :=
    (lists_toList s.accounts).entries_eq
  simp only [root, haccounts, storageRoot_ofMaps hash transient h, State.hashAll,
    State.accountPaths_eq, State.accountPairs]

def setAccount (w : World) (a : Address) (x : Option Account) : World :=
  { w with accounts := Function.update w.accounts a x }

def setStorage (w : World) (a : Address) (key value : Word) : World :=
  { w with storage := Function.update w.storage a (Function.update (w.storage a) key value) }

def destroyStorage (w : World) (a : Address) : World :=
  { w with storage := Function.update w.storage a fun _ => 0 }

def setTransient (w : World) (a : Address) (key value : Word) : World :=
  { w with transient := Function.update w.transient a (Function.update (w.transient a) key value) }

theorem get_set_eq_update (storage : Storage) (a : Address) (key value : Word) :
    (storage.set a key value).get =
      Function.update storage.get a (Function.update (storage.get a) key value) := by
  funext b key'
  rw [Storage.get_set]
  by_cases hab : a = b
  · subst hab
    by_cases hk : key = key'
    · simp [hk]
    · simp [hk, Function.update_of_ne (Ne.symm hk)]
  · simp [hab, Function.update_of_ne (Ne.symm hab)]

variable (accounts : Accounts) (storage : Storage)

theorem ofMaps_set (a : Address) (key value : Word) :
    ofMaps accounts (storage.set a key value) transient =
      (ofMaps accounts storage transient).setStorage a key value := by
  rw [ofMaps, get_set_eq_update]
  rfl

theorem ofMaps_set_transient (a : Address) (key value : Word) :
    ofMaps accounts storage (transient.set a key value) =
      (ofMaps accounts storage transient).setTransient a key value := by
  rw [ofMaps, get_set_eq_update]
  rfl

theorem ofMaps_erase (a : Address) :
    ofMaps accounts (storage.erase a) transient =
      (ofMaps accounts storage transient).destroyStorage a := by
  have hget : Storage.get (storage.erase a) = Function.update storage.get a fun _ => 0 := by
    funext b key
    rw [Storage.get_erase]
    by_cases hab : a = b
    · simp [hab]
    · simp [hab, Function.update_of_ne (Ne.symm hab)]
  rw [ofMaps, hget]
  rfl

theorem ofMaps_setAccount (s : State) (a : Address) (x : Option Account) :
    ofMaps (s.setAccount a x).accounts storage transient =
      (ofMaps s.accounts storage transient).setAccount a x := by
  have haccounts : (fun b => (s.setAccount a x).accounts[b]?) =
      Function.update (fun b => s.accounts[b]?) a x := by
    funext b
    unfold State.setAccount
    by_cases hab : a = b
    · subst hab
      cases x <;> simp
    · rw [Function.update_of_ne (Ne.symm hab)]
      cases x <;> simp [Std.ExtTreeMap.getElem?_erase, Std.ExtTreeMap.getElem?_insert, hab]
  rw [ofMaps, haccounts]
  rfl

end World

end ExecutionLayer
