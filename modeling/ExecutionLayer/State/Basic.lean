import ExecutionLayer.Account
import Std.Data.ExtTreeMap
import Std.Data.ExtTreeSet

/-! # The world state

The state maps addresses to accounts and, apart from that, to storage. Storage holds no zeros, and
an address whose storage has become empty has none. Snapshots are copies of both maps; the accounts
created in the current transaction are remembered beside them and are not part of a snapshot.

An operation that can fail leaves the state as far as it got.
-/
namespace ExecutionLayer

instance (priority := 2000) Address.transOrd : Std.TransOrd Address := BitVec.instTransOrd

instance (priority := 2000) Word.transOrd : Std.TransOrd Word := BitVec.instTransOrd

abbrev Slots := Std.ExtTreeMap Word Word

abbrev Accounts := Std.ExtTreeMap Address Account

abbrev Storage := Std.ExtTreeMap Address Slots

structure Snapshot where
  accounts : Accounts
  storage : Storage

structure State where
  accounts : Accounts := ∅
  storage : Storage := ∅
  /-- Open snapshots, the latest one first. -/
  snapshots : List Snapshot := []
  created : Std.ExtTreeSet Address := ∅

instance : Inhabited State := ⟨{}⟩

abbrev StateOp := EStateM Fault State

namespace Storage

/-- The value in a slot, which is zero if nothing else was stored. -/
def get (storage : Storage) (address : Address) (key : Word) : Word :=
  match storage[address]? with
  | some slots => slots[key]?.getD 0
  | none => 0

def set (storage : Storage) (address : Address) (key value : Word) : Storage :=
  let slots := storage[address]?.getD ∅
  let slots := if value = 0 then slots.erase key else slots.insert key value
  if slots.isEmpty then storage.erase address else storage.insert address slots

end Storage

namespace State

def account? (s : State) (address : Address) : Option Account := s.accounts[address]?

def account (s : State) (address : Address) : Account := (s.account? address).getD .empty

def setAccount (s : State) (address : Address) (account : Option Account) : State :=
  match account with
  | some a => { s with accounts := s.accounts.insert address a }
  | none => { s with accounts := s.accounts.erase address }

def destroyStorage (s : State) (address : Address) : State :=
  { s with storage := s.storage.erase address }

def destroyAccount (s : State) (address : Address) : State :=
  (s.destroyStorage address).setAccount address none

def markCreated (s : State) (address : Address) : State :=
  { s with created := s.created.insert address }

def getStorage (s : State) (address : Address) (key : Word) : Word := s.storage.get address key

def setStorage (s : State) (address : Address) (key value : Word) : Except Fault State :=
  if (s.account? address).isSome then .ok { s with storage := s.storage.set address key value }
  else .error .brokenInvariant

def accountExists (s : State) (address : Address) : Bool := (s.account? address).isSome

def hasCodeOrNonce (s : State) (address : Address) : Bool := (s.account address).hasCodeOrNonce

def isAccountEmpty (s : State) (address : Address) : Bool := (s.account address).isEmpty

def existsAndIsEmpty (s : State) (address : Address) : Bool :=
  (s.account? address).any Account.isEmpty

/-- Whether there is an account at the address that is not empty. -/
def isAlive (s : State) (address : Address) : Bool :=
  (s.account? address).any fun a => !a.isEmpty

def modifyAccount (s : State) (address : Address) (f : Account → Account) : State :=
  s.setAccount address (some (f (s.account address)))

def setBalance (s : State) (address : Address) (amount : Word) : State :=
  s.modifyAccount address fun a => { a with balance := amount }

def incrementNonce (s : State) (address : Address) : State :=
  s.modifyAccount address fun a => { a with nonce := a.nonce + 1 }

def setCode (s : State) (address : Address) (code : Bytes) : State :=
  s.modifyAccount address fun a => { a with code := code }

def touch (s : State) (address : Address) : State :=
  if s.accountExists address then s else s.setAccount address (some .empty)

/-- Adds to a balance, which must not exceed the range of words. -/
def addBalance (s : State) (address : Address) (amount : Nat) : Except Fault State := do
  let balance ← Word.ofNat? ((s.account address).balance.toNat + amount)
  return s.setBalance address balance

def withdraw (s : State) (address : Address) (amount : Word) : Except Fault State := do
  let amount ← Word.ofNat? (amount.toNat * 1000000000)
  s.addBalance address amount.toNat

def subBalance (s : State) (address : Address) (amount : Word) : Except Fault State :=
  let balance := (s.account address).balance
  if balance.toNat < amount.toNat then .error .brokenInvariant
  else .ok (s.setBalance address (balance - amount))

def destroyEmpty (s : State) (addresses : List Address) : State :=
  addresses.foldl
    (fun s address => if s.existsAndIsEmpty address then s.destroyAccount address else s) s

def step (f : State → Except Fault State) : StateOp Unit := fun s =>
  match f s with
  | .ok s => .ok () s
  | .error fault => .error fault s

def moveEther (sender recipient : Address) (amount : Word) : StateOp Unit := do
  step (·.subBalance sender amount)
  step (·.addBalance recipient amount.toNat)

def begin (s : State) : State :=
  { s with snapshots := ⟨s.accounts, s.storage⟩ :: s.snapshots }

/-- Forgets the created accounts once no snapshot is open. -/
def closeSnapshot (s : State) (rest : List Snapshot) : State :=
  { s with
    snapshots := rest
    created := if rest.isEmpty then ∅ else s.created }

def commit (s : State) : Except Fault State :=
  match s.snapshots with
  | [] => .error .indexOutOfRange
  | _ :: rest => .ok (s.closeSnapshot rest)

def rollback (s : State) : Except Fault State :=
  match s.snapshots with
  | [] => .error .indexOutOfRange
  | snapshot :: rest =>
    .ok ({ s with accounts := snapshot.accounts, storage := snapshot.storage }.closeSnapshot rest)

/-- The value of a slot before the current transaction, zero for accounts created in it. -/
def startStorage (s : State) (address : Address) (key : Word) : Except Fault Word :=
  if s.created.contains address then .ok 0
  else
    match s.snapshots.getLast? with
    | some snapshot => .ok (snapshot.storage.get address key)
    | none => .error .indexOutOfRange

end State

/-! ## Transient storage

Storage that lasts for one transaction. Its snapshots are opened and closed together with those of
the state.
-/

structure Transient where
  storage : Storage := ∅
  snapshots : List Storage := []

instance : Inhabited Transient := ⟨{}⟩

namespace Transient

def get (t : Transient) (address : Address) (key : Word) : Word := t.storage.get address key

def set (t : Transient) (address : Address) (key value : Word) : Transient :=
  { t with storage := t.storage.set address key value }

def begin (t : Transient) : Transient := { t with snapshots := t.storage :: t.snapshots }

def commit (t : Transient) : Except Fault Transient :=
  match t.snapshots with
  | [] => .error .indexOutOfRange
  | _ :: rest => .ok { t with snapshots := rest }

def rollback (t : Transient) : Except Fault Transient :=
  match t.snapshots with
  | [] => .error .indexOutOfRange
  | storage :: rest => .ok ⟨storage, rest⟩

end Transient

end ExecutionLayer
