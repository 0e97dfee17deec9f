import ExecutionLayer.State.Tables
import Mathlib.Data.List.Nodup

/-! # Tables that are not shared

As long as no table stands in two places, a change through one directory is not seen through another
one, and new tables can be added without being seen at all.
-/
namespace ExecutionLayer

namespace Tables
variable {m m' : Tables} {refs : List Nat} {ref place : Nat} {a : Address} {storage : Storage}

@[simp] theorem getElem?_storageAt (m : Tables) (ref : Nat) (a : Address) :
    (m.storageAt ref)[a]? = (m.directoryAt ref)[a]?.map m.slotsAt :=
  Std.ExtTreeMap.getElem?_map

theorem directoryAt_setDirectory (h : ref < m.directories.size) (d : Directory) (ref' : Nat) :
    (m.setDirectory ref d).directoryAt ref' = if ref = ref' then d else m.directoryAt ref' := by
  unfold directoryAt setDirectory
  rw [Array.getElem?_setIfInBounds, if_pos h]
  split <;> rfl

theorem slotsAt_setSlots (h : place < m.slots.size) (slots : Slots) (place' : Nat) :
    (m.setSlots place slots).slotsAt place' =
      if place = place' then slots else m.slotsAt place' := by
  unfold slotsAt setSlots
  rw [Array.getElem?_setIfInBounds, if_pos h]
  split <;> rfl

/-- The account has its slots in the table at the given place. -/
def Places (m : Tables) (ref : Nat) (a : Address) (place : Nat) : Prop :=
  (m.directoryAt ref)[a]? = some place

/-- The directories are all different, and no table is in two places of them. -/
structure Apart (m : Tables) (refs : List Nat) : Prop where
  nodup : refs.Nodup
  known : ∀ ref ∈ refs, ref < m.directories.size
  placed : ∀ ref ∈ refs, ∀ a place, m.Places ref a place → place < m.slots.size
  alone : ∀ ref ∈ refs, ∀ ref' ∈ refs, ∀ a a' place, m.Places ref a place →
    m.Places ref' a' place → ref = ref' ∧ a = a'

theorem apart_nil (m : Tables) : m.Apart [] := by
  constructor <;> simp

theorem Apart.mono {refs' : List Nat} (h : m.Apart refs)
    (hcount : ∀ r, refs'.count r ≤ refs.count r) : m.Apart refs' := by
  have hsub : ∀ r ∈ refs', r ∈ refs := fun r hr =>
    List.count_pos_iff.mp (Nat.lt_of_lt_of_le (List.count_pos_iff.mpr hr) (hcount r))
  refine ⟨List.nodup_iff_count.mpr fun r => ?_, fun r hr => h.known r (hsub r hr),
    fun r hr => h.placed r (hsub r hr), fun r hr r' hr' => h.alone r (hsub r hr) r' (hsub r' hr')⟩
  exact Nat.le_trans (hcount r) (List.nodup_iff_count.mp h.nodup r)

/-- What is read through a directory depends on it and its tables only. -/
theorem storageAt_congr (hd : m'.directoryAt ref = m.directoryAt ref)
    (hs : ∀ a place, m.Places ref a place → m'.slotsAt place = m.slotsAt place) :
    m'.storageAt ref = m.storageAt ref := by
  refine Std.ExtTreeMap.ext_getElem? fun a => ?_
  rw [getElem?_storageAt, getElem?_storageAt, hd]
  exact Option.map_congr fun place hplace => hs a place hplace

/-- One directory is read differently after a change, and all others as before. -/
structure Rewrites (refs : List Nat) (m m' : Tables) (ref : Nat) (storage : Storage) : Prop where
  apart : m'.Apart refs
  here : m'.storageAt ref = storage
  elsewhere : ∀ r ∈ refs, r ≠ ref → m'.storageAt r = m.storageAt r

theorem Rewrites.trans {m'' : Tables} {storage' : Storage} (h : Rewrites refs m m' ref storage)
    (h' : Rewrites refs m' m'' ref storage') : Rewrites refs m m'' ref storage' where
  apart := h'.apart
  here := h'.here
  elsewhere r hm hne := (h'.elsewhere r hm hne).trans (h.elsewhere r hm hne)

theorem rewrites_setDirectory (h : m.Apart refs) (hm : ref ∈ refs) {d : Directory}
    (keep : Address → Bool) (hd : ∀ a, d[a]? = if keep a then (m.directoryAt ref)[a]? else none)
    (hs : ∀ a, storage[a]? = if keep a then (m.storageAt ref)[a]? else none) :
    Rewrites refs m (m.setDirectory ref d) ref storage := by
  have hread := directoryAt_setDirectory (h.known ref hm) d
  have hpart : ∀ r a place, (m.setDirectory ref d).Places r a place → m.Places r a place := by
    intro r a place hplace
    rw [Places, hread] at hplace
    split at hplace
    · next heq =>
      rw [hd, Option.ite_none_right_eq_some] at hplace
      exact heq ▸ hplace.2
    · exact hplace
  refine ⟨⟨h.nodup, fun r hr => ?_,
    fun r hr a place hp => h.placed r hr a place (hpart r a place hp),
    fun r hr r' hr' a a' place hp hp' =>
      h.alone r hr r' hr' a a' place (hpart r a place hp) (hpart r' a' place hp')⟩, ?_,
    fun r hr hne => ?_⟩
  · simpa [setDirectory] using h.known r hr
  · refine Std.ExtTreeMap.ext_getElem? fun a => ?_
    rw [getElem?_storageAt, hread, if_pos rfl, hd, hs, getElem?_storageAt]
    split <;> rfl
  · exact storageAt_congr (by rw [hread, if_neg hne.symm]) fun _ _ _ => rfl

theorem rewrites_setSlots (h : m.Apart refs) (hm : ref ∈ refs) (ha : m.Places ref a place)
    (slots : Slots) :
    Rewrites refs m (m.setSlots place slots) ref ((m.storageAt ref).insert a slots) := by
  have hread := slotsAt_setSlots (h.placed ref hm a place ha) slots
  refine ⟨⟨h.nodup, h.known, fun r hr a' place' hp => ?_, h.alone⟩, ?_, fun r hr hne => ?_⟩
  · simpa [setSlots] using h.placed r hr a' place' hp
  · refine Std.ExtTreeMap.ext_getElem? fun a' => ?_
    rw [getElem?_storageAt, Std.ExtTreeMap.getElem?_insert, getElem?_storageAt]
    change (m.directoryAt ref)[a']?.map _ = _
    by_cases haa : a = a'
    · subst haa
      rw [show (m.directoryAt ref)[a]? = some place from ha]
      simp [hread]
    · rw [if_neg (by simpa using haa)]
      refine Option.map_congr fun place' hp => ?_
      rw [hread, if_neg]
      rintro rfl
      exact haa (h.alone ref hm ref hm a a' place ha hp).2
  · refine storageAt_congr rfl fun a' place' hp => ?_
    rw [hread, if_neg]
    rintro rfl
    exact hne (h.alone ref hm r hr a a' place ha hp).1.symm

/-- Entries are added, and each of them has a new table to itself. -/
theorem Apart.extend {refs' : List Nat} {N : Nat → Address → Nat → Prop} (h : m.Apart refs)
    (hnodup : refs'.Nodup) (hknown : ∀ r ∈ refs', r < m'.directories.size)
    (hsize : m.slots.size ≤ m'.slots.size)
    (hplaces : ∀ r ∈ refs', ∀ a place, m'.Places r a place →
      (r ∈ refs ∧ m.Places r a place) ∨
        (m.slots.size ≤ place ∧ place < m'.slots.size ∧ N r a place))
    (hnew : ∀ r r' a a' place, N r a place → N r' a' place → r = r' ∧ a = a') :
    m'.Apart refs' := by
  refine ⟨hnodup, hknown, fun r hr a place hp => ?_, fun r hr r' hr' a a' place hp hp' => ?_⟩
  · obtain ⟨hold, hp⟩ | ⟨-, hlt, -⟩ := hplaces r hr a place hp
    · exact Nat.lt_of_lt_of_le (h.placed r hold a place hp) hsize
    · exact hlt
  · obtain ⟨hold, hp⟩ | ⟨hge, -, hn⟩ := hplaces r hr a place hp <;>
      obtain ⟨hold', hp'⟩ | ⟨hge', -, hn'⟩ := hplaces r' hr' a' place hp'
    · exact h.alone r hold r' hold' a a' place hp hp'
    · exact absurd (h.placed r hold a place hp) (by omega)
    · exact absurd (h.placed r' hold' a' place hp') (by omega)
    · exact hnew r r' a a' place hn hn'

theorem openSlots_spec (h : m.Apart refs) (hm : ref ∈ refs) (a : Address) :
    Rewrites refs m (m.openSlots ref a).1 ref
        ((m.storageAt ref).insert a ((m.storageAt ref)[a]?.getD ∅)) ∧
      (m.openSlots ref a).1.Places ref a (m.openSlots ref a).2 := by
  unfold openSlots
  cases hplace : (m.directoryAt ref)[a]? with
  | some place =>
    refine ⟨⟨h, ?_, fun _ _ _ => rfl⟩, hplace⟩
    refine Std.ExtTreeMap.ext_getElem? fun a' => ?_
    rw [Std.ExtTreeMap.getElem?_insert]
    by_cases haa : a = a'
    · subst haa
      simp [hplace]
    · simp [haa]
  | none =>
    have hslots : ∀ place, ({ m with slots := m.slots.push ∅ }.setDirectory ref
        ((m.directoryAt ref).insert a m.slots.size)).slotsAt place = m.slotsAt place := by
      intro place
      change (m.slots.push ∅)[place]?.getD ∅ = m.slots[place]?.getD ∅
      rw [Array.getElem?_push]
      split
      · next heq => simp [heq]
      · rfl
    have hread := directoryAt_setDirectory (m := { m with slots := m.slots.push ∅ })
      (h.known ref hm) ((m.directoryAt ref).insert a m.slots.size)
    refine ⟨⟨h.extend (N := fun r a' place => r = ref ∧ a' = a ∧ place = m.slots.size) h.nodup
      (fun r hr => ?_) ?_ (fun r hr a' place hp => ?_) ?_, ?_, fun r hr hne => ?_⟩, ?_⟩
    · simpa [setDirectory] using h.known r hr
    · simp [setDirectory]
    · rw [Places, hread] at hp
      split at hp
      · next heq =>
        subst heq
        rw [Std.ExtTreeMap.getElem?_insert] at hp
        split at hp
        · next haa =>
          obtain rfl := Option.some.inj hp
          have heq := (Std.LawfulEqCmp.eq_of_compare haa).symm
          exact Or.inr ⟨Nat.le_refl _, by simp [setDirectory], rfl, heq, rfl⟩
        · exact Or.inl ⟨hr, hp⟩
      · exact Or.inl ⟨hr, hp⟩
    · rintro r r' a a' place ⟨rfl, rfl, -⟩ ⟨rfl, rfl, -⟩
      exact ⟨rfl, rfl⟩
    · refine Std.ExtTreeMap.ext_getElem? fun a' => ?_
      rw [getElem?_storageAt, hread, if_pos rfl, funext hslots, Std.ExtTreeMap.getElem?_insert,
        Std.ExtTreeMap.getElem?_insert, getElem?_storageAt, getElem?_storageAt, hplace]
      by_cases haa : compare a a' = .eq
      · simp [haa, slotsAt]
      · simp [haa]
    · exact storageAt_congr (by rw [hread, if_neg hne.symm]; rfl) fun _ place _ => hslots place
    · rw [Places, hread, if_pos rfl, Std.ExtTreeMap.getElem?_insert_self]

theorem insert_insert (storage : Storage) (a : Address) (slots slots' : Slots) :
    (storage.insert a slots).insert a slots' = storage.insert a slots' := by
  refine Std.ExtTreeMap.ext_getElem? fun a' => ?_
  simp only [Std.ExtTreeMap.getElem?_insert]
  split <;> rfl

theorem rewrites_setSlot (h : m.Apart refs) (hm : ref ∈ refs) (a : Address) (key value : Word) :
    Rewrites refs m (m.setSlot ref a key value) ref ((m.storageAt ref).set a key value) := by
  obtain ⟨hopen, hplace⟩ := openSlots_spec h hm a
  have hslots : (m.openSlots ref a).1.slotsAt (m.openSlots ref a).2 =
      (m.storageAt ref)[a]?.getD ∅ := by
    have hat := congrArg (fun x : Storage => x[a]?) hopen.here
    simpa [show ((m.openSlots ref a).1.directoryAt ref)[a]? = _ from hplace] using hat
  unfold setSlot Storage.set
  dsimp only
  rw [hslots]
  generalize (if value = 0 then ((m.storageAt ref)[a]?.getD ∅).erase key
    else ((m.storageAt ref)[a]?.getD ∅).insert key value) = slots
  have hset : Rewrites refs m ((m.openSlots ref a).1.setSlots (m.openSlots ref a).2 slots) ref
      ((m.storageAt ref).insert a slots) := by
    refine insert_insert (m.storageAt ref) a _ slots ▸ hopen.here ▸
      hopen.trans (rewrites_setSlots hopen.apart hm hplace slots)
  split
  · refine hset.trans (rewrites_setDirectory hset.apart hm (a != ·) (fun a' => ?_) fun a' => ?_)
    · rw [Std.ExtTreeMap.getElem?_erase]
      by_cases haa : a = a' <;> simp [haa]
    · rw [hset.here, Std.ExtTreeMap.getElem?_erase, Std.ExtTreeMap.getElem?_insert]
      by_cases haa : a = a' <;> simp [haa]
  · exact hset

theorem accounts_setSlot (m : Tables) (ref : Nat) (a : Address) (key value : Word) :
    (m.setSlot ref a key value).accounts = m.accounts := by
  have hopen : (m.openSlots ref a).1.accounts = m.accounts := by
    unfold openSlots
    split <;> rfl
  unfold setSlot
  rw [apply_ite Tables.accounts]
  exact (ite_self _).trans hopen

/-- New tables have the given contents, and nothing else changes. -/
theorem addStorage_spec (h : m.Apart refs) (storage : Storage) :
    (m.addStorage storage).1.Apart ((m.addStorage storage).2 :: refs) ∧
      (m.addStorage storage).1.storageAt (m.addStorage storage).2 = storage ∧
      ∀ r ∈ refs, (m.addStorage storage).1.storageAt r = m.storageAt r := by
  have hnew : (m.addStorage storage).1.directoryAt (m.addStorage storage).2 =
      storage.map fun a _ => m.slots.size + storage.keys.idxOf a := by
    simp [addStorage, directoryAt]
  have hold : ∀ r < m.directories.size,
      (m.addStorage storage).1.directoryAt r = m.directoryAt r := by
    intro r hr
    simp [addStorage, directoryAt, Array.getElem?_push, Nat.ne_of_lt hr]
  have hslots : ∀ place, (m.addStorage storage).1.slotsAt place =
      if place < m.slots.size then m.slotsAt place
      else (storage.keys.map fun a => storage[a]?.getD ∅)[place - m.slots.size]?.getD ∅ := by
    intro place
    simp only [addStorage, slotsAt, Array.getElem?_append, List.getElem?_toArray]
    split <;> rfl
  have hkey : ∀ (a : Address) slots, storage[a]? = some slots → a ∈ storage.keys := by
    intro a slots hs
    rw [Std.ExtTreeMap.mem_keys, Std.ExtTreeMap.mem_iff_isSome_getElem?, hs]
    rfl
  refine ⟨h.extend (N := fun r a place => r = (m.addStorage storage).2 ∧ a ∈ storage.keys ∧
      place = m.slots.size + storage.keys.idxOf a) ?_ ?_ ?_ ?_ ?_, ?_, ?_⟩
  · exact List.nodup_cons.mpr ⟨fun hm => Nat.lt_irrefl _ (h.known _ hm), h.nodup⟩
  · refine List.forall_mem_cons.mpr ⟨by simp [addStorage], fun r hr => ?_⟩
    exact Nat.lt_trans (h.known r hr) (by simp [addStorage])
  · simp [addStorage]
  · refine List.forall_mem_cons.mpr ⟨fun a place hp => Or.inr ?_, fun r hr a place hp => Or.inl ?_⟩
    · rw [Places, hnew, Std.ExtTreeMap.getElem?_map] at hp
      obtain ⟨slots, hs, rfl⟩ := Option.map_eq_some_iff.mp hp
      have hlt := List.idxOf_lt_length_iff.mpr (hkey a slots hs)
      exact ⟨Nat.le_add_right _ _, by simpa [addStorage] using hlt, rfl, hkey a slots hs, rfl⟩
    · rw [Places, hold r (h.known r hr)] at hp
      exact ⟨hr, hp⟩
  · rintro r r' a a' place ⟨rfl, ha, rfl⟩ ⟨rfl, -, heq⟩
    exact ⟨rfl, (List.idxOf_inj ha).mp (Nat.add_left_cancel heq)⟩
  · refine Std.ExtTreeMap.ext_getElem? fun a => ?_
    rw [getElem?_storageAt, hnew, Std.ExtTreeMap.getElem?_map]
    cases hs : storage[a]? with
    | none => rfl
    | some slots =>
      rw [Option.map_some, Option.map_some, hslots, if_neg (by omega), Nat.add_sub_cancel_left]
      simp [List.getElem?_idxOf (hkey a slots hs), hs]
  · refine fun r hr => storageAt_congr (hold r (h.known r hr)) fun a place hp => ?_
    rw [hslots, if_pos (h.placed r hr a place hp)]

theorem add_spec (h : m.Apart refs) (accounts : Accounts) (storage transient : Storage) :
    (m.add accounts storage transient).1.Apart ((m.add accounts storage transient).2.transient ::
        (m.add accounts storage transient).2.storage :: refs) ∧
      (m.add accounts storage transient).1.storageAt
        (m.add accounts storage transient).2.storage = storage ∧
      (m.add accounts storage transient).1.storageAt
        (m.add accounts storage transient).2.transient = transient ∧
      ∀ r ∈ refs, (m.add accounts storage transient).1.storageAt r = m.storageAt r := by
  obtain ⟨h₁, hstorage, hkeep₁⟩ :=
    addStorage_spec (m := { m with accounts := m.accounts.push accounts })
      ⟨h.nodup, h.known, h.placed, h.alone⟩ storage
  obtain ⟨h₂, htransient, hkeep₂⟩ := addStorage_spec h₁ transient
  obtain ⟨hnew, hrest⟩ := List.forall_mem_cons.mp hkeep₂
  exact ⟨h₂, hnew.trans hstorage, htransient, fun r hr => (hrest r hr).trans (hkeep₁ r hr)⟩

theorem accountsAt_add (m : Tables) (accounts : Accounts) (storage transient : Storage) (r : Nat) :
    (m.add accounts storage transient).1.accountsAt r =
      if r = m.accounts.size then accounts else m.accountsAt r := by
  change (m.accounts.push accounts)[r]?.getD ∅ = _
  rw [Array.getElem?_push]
  split <;> rfl

end Tables

end ExecutionLayer
