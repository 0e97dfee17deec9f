import ExecutionLayer.State.Basic

/-! # Tables in memory

The maps of a state are tables in memory, which are changed in place: whoever holds the reference of
a table sees the change. The storage of all accounts is a directory, a table that has for each
account a reference to the table of its slots. A copy is a new table with the same contents.
-/
namespace ExecutionLayer

abbrev Directory := Std.ExtTreeMap Address Nat

structure Tables where
  accounts : Array Accounts := #[]
  slots : Array Slots := #[]
  directories : Array Directory := #[]

/-- References to the tables of accounts, storage and transient storage. -/
structure Handle where
  accounts : Nat
  storage : Nat
  transient : Nat

namespace Tables

def accountsAt (m : Tables) (ref : Nat) : Accounts := m.accounts[ref]?.getD ∅

def slotsAt (m : Tables) (ref : Nat) : Slots := m.slots[ref]?.getD ∅

def directoryAt (m : Tables) (ref : Nat) : Directory := m.directories[ref]?.getD ∅

/-- What is read through a directory. -/
def storageAt (m : Tables) (ref : Nat) : Storage :=
  (m.directoryAt ref).map fun _ slots => m.slotsAt slots

def setAccounts (m : Tables) (ref : Nat) (accounts : Accounts) : Tables :=
  { m with accounts := m.accounts.setIfInBounds ref accounts }

def setSlots (m : Tables) (ref : Nat) (slots : Slots) : Tables :=
  { m with slots := m.slots.setIfInBounds ref slots }

def setDirectory (m : Tables) (ref : Nat) (directory : Directory) : Tables :=
  { m with directories := m.directories.setIfInBounds ref directory }

/-- The table of an account's slots, which is made if there is none. -/
def openSlots (m : Tables) (ref : Nat) (address : Address) : Tables × Nat :=
  match (m.directoryAt ref)[address]? with
  | some slots => (m, slots)
  | none =>
    let directory := (m.directoryAt ref).insert address m.slots.size
    ({ m with slots := m.slots.push ∅ }.setDirectory ref directory, m.slots.size)

/-- Writes a slot in its table. An account whose slots are all zero loses its table. -/
def setSlot (m : Tables) (ref : Nat) (address : Address) (key value : Word) : Tables :=
  let (m, place) := m.openSlots ref address
  let slots := m.slotsAt place
  let slots := if value = 0 then slots.erase key else slots.insert key value
  let m := m.setSlots place slots
  if slots.isEmpty then m.setDirectory ref ((m.directoryAt ref).erase address) else m

/-- New tables, one after the other in the order of addresses, and a directory of them. -/
def addStorage (m : Tables) (storage : Storage) : Tables × Nat :=
  let addresses := storage.keys
  let directory := storage.map fun address _ => m.slots.size + addresses.idxOf address
  ({ m with
    slots := m.slots ++ (addresses.map fun address => storage[address]?.getD ∅).toArray
    directories := m.directories.push directory }, m.directories.size)

/-- Tables for accounts, storage and transient storage. -/
def add (m : Tables) (accounts : Accounts) (storage transient : Storage) : Tables × Handle :=
  let place := m.accounts.size
  let m := { m with accounts := m.accounts.push accounts }
  let (m, storage) := m.addStorage storage
  let (m, transient) := m.addStorage transient
  (m, ⟨place, storage, transient⟩)

/-- A copy is made of every table. -/
def copy (m : Tables) (h : Handle) : Tables × Handle :=
  m.add (m.accountsAt h.accounts) (m.storageAt h.storage) (m.storageAt h.transient)

end Tables

end ExecutionLayer
