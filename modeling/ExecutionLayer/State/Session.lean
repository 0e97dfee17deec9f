import ExecutionLayer.Crypto.Keccak
import ExecutionLayer.Dao
import ExecutionLayer.Fork
import ExecutionLayer.State.Root
import ExecutionLayer.State.Tables

/-! # Sessions

A session applies commands to one state and its transient storage, which are kept in tables. A state
can be closed, after which everything that looks at it is a fault.
-/
namespace ExecutionLayer.State

inductive Command where
  | begin | commit | rollback | close
  | account (address : Address)
  | accountOptional (address : Address)
  | setAccount (address : Address) (account : Option Account)
  | destroyAccount (address : Address)
  | destroyStorage (address : Address)
  | markCreated (address : Address)
  | getStorage (address : Address) (key : Word)
  | setStorage (address : Address) (key value : Word)
  | startStorage (address : Address) (key : Word)
  | getTransient (address : Address) (key : Word)
  | setTransient (address : Address) (key value : Word)
  | storageRoot (address : Address)
  | root
  | accountExists (address : Address)
  | hasCodeOrNonce (address : Address)
  | isEmpty (address : Address)
  | existsAndIsEmpty (address : Address)
  | isAlive (address : Address)
  | moveEther (sender recipient : Address) (amount : Word)
  | createEther (address : Address) (amount : Word)
  | withdraw (address : Address) (amount : Word)
  | setBalance (address : Address) (amount : Word)
  | touch (address : Address)
  | incrementNonce (address : Address)
  | setCode (address : Address) (code : Bytes)
  | destroyEmpty (addresses : List Address)
  | applyDao
  | dump

inductive Reply where
  | done
  | truth (b : Bool)
  | word (w : Word)
  | hash (h : Hash)
  | account (a : Option Account)
  | dump (s : State) (root : Option Hash)

def Reply.value : Reply → Rlp.Value
  | truth b => .truth b
  | word w => .word w
  | hash h => .fixed h
  | account (some a) => a.value
  | done | account none | dump _ _ => .absent

def Command.onState : Command → StateOp Reply
  | account address => do return .account (some ((← get).account address))
  | accountOptional address => do return .account ((← get).account? address)
  | setAccount address a => change (·.setAccount address a)
  | destroyAccount address => change (·.destroyAccount address)
  | destroyStorage address => change (·.destroyStorage address)
  | markCreated address => change (·.markCreated address)
  | getStorage address key => do return .word ((← get).getStorage address key)
  | setStorage address key value => attempt (·.setStorage address key value)
  | startStorage address key => ask fun s => .word <$> s.startStorage address key
  | storageRoot address => ask fun s => .hash <$> s.storageRoot keccak256 address
  | root => ask fun s => .hash <$> s.root keccak256
  | accountExists address => do return .truth ((← get).accountExists address)
  | hasCodeOrNonce address => do return .truth ((← get).hasCodeOrNonce address)
  | isEmpty address => do return .truth ((← get).isAccountEmpty address)
  | existsAndIsEmpty address => do return .truth ((← get).existsAndIsEmpty address)
  | isAlive address => do return .truth ((← get).isAlive address)
  | moveEther sender recipient amount => do
    State.moveEther sender recipient amount
    return .done
  | createEther address amount => attempt (·.addBalance address amount.toNat)
  | withdraw address amount => attempt (·.withdraw address amount)
  | setBalance address amount => change (·.setBalance address amount)
  | touch address => change (·.touch address)
  | incrementNonce address => change (·.incrementNonce address)
  | setCode address code => change (·.setCode address code)
  | destroyEmpty addresses => change (·.destroyEmpty addresses)
  | applyDao => do
    Dao.apply
    return .done
  | dump => do
    let s ← get
    return .dump s (s.root keccak256).toOption
  | _ => return .done
where
  ask (f : State → Except Fault Reply) : StateOp Reply := do
    match f (← get) with
    | .ok reply => return reply
    | .error fault => throw fault
  change (f : State → State) : StateOp Reply := do
    modify f
    return .done
  attempt (f : State → Except Fault State) : StateOp Reply := do
    step f
    return .done

def Command.apply (command : Command) (s : State) : Except Fault Reply × State :=
  match command.onState s with
  | .ok reply s => (.ok reply, s)
  | .error fault s => (.error fault, s)

def Command.isKnown (fork : Fork) : Command → Bool
  | isEmpty _ | existsAndIsEmpty _ | isAlive _ => Fork.spuriousDragon ≤ fork
  | startStorage _ _ | markCreated _ => Fork.istanbul ≤ fork
  | createEther _ _ => fork < Fork.paris
  | withdraw _ _ => Fork.shanghai ≤ fork
  | destroyEmpty _ | getTransient _ _ | setTransient _ _ _ => Fork.cancun ≤ fork
  | _ => true

/-- A state and its transient storage in tables, with the open snapshots of both, the latest one
first. -/
structure Store where
  tables : Tables
  current : Handle
  snapshots : List Handle
  created : Std.ExtTreeSet Address
  isOpen : Bool

namespace Store

/-- A state in tables of its own. Its snapshots are left out. -/
def ofState (state : Option State) : Store :=
  let s := state.getD {}
  let (m, current) := Tables.add {} s.accounts s.storage ∅
  ⟨m, current, [], s.created, state.isSome⟩

def snapshotAt (st : Store) (h : Handle) : Snapshot :=
  ⟨st.tables.accountsAt h.accounts, st.tables.storageAt h.storage⟩

/-- The state that is read through the references. -/
def view (st : Store) : State :=
  let now := st.snapshotAt st.current
  ⟨now.accounts, now.storage, st.snapshots.map st.snapshotAt, st.created⟩

/-- Changes the current tables to what a state holds, except that no slot is written. -/
def assign (st : Store) (s : State) : Store :=
  let directory := (st.tables.directoryAt st.current.storage).filter fun address _ =>
    s.storage.contains address
  let m := st.tables.setAccounts st.current.accounts s.accounts
  { st with tables := m.setDirectory st.current.storage directory, created := s.created }

/-- A snapshot refers to copies. -/
def begin (st : Store) : Store :=
  let (m, snapshot) := st.tables.copy st.current
  { st with tables := m, snapshots := snapshot :: st.snapshots }

/-- Goes on with fewer snapshots, and forgets the created accounts once none is open. -/
def close (st : Store) (current : Handle) (rest : List Handle) : Except Fault Reply × Store :=
  (.ok .done, { st with
    current := current
    snapshots := rest
    created := if rest.isEmpty then ∅ else st.created })

def setSlot (st : Store) (ref : Nat) (address : Address) (key value : Word) :
    Except Fault Reply × Store :=
  (.ok .done, { st with tables := st.tables.setSlot ref address key value })

def onOpen (st : Store) : Command → Except Fault Reply × Store
  | .begin => (.ok .done, st.begin)
  | .commit =>
    match st.snapshots with
    | [] => (.error .indexOutOfRange, st)
    | _ :: rest => st.close st.current rest
  | .rollback =>
    match st.snapshots with
    | [] => (.error .indexOutOfRange, st)
    | snapshot :: rest => st.close snapshot rest
  | .close => (.ok .done, { st with isOpen := false })
  | .setStorage address key value =>
    if (st.view.account? address).isSome then st.setSlot st.current.storage address key value
    else (.error .brokenInvariant, st)
  | command =>
    let (reply, s) := command.apply st.view
    (reply, st.assign s)

def run (fork : Fork) (st : Store) (command : Command) : Except Fault Reply × Store :=
  if !command.isKnown fork then (.error .missingComponent, st)
  else match command with
  | .getTransient address key =>
    (.ok (.word ((st.tables.storageAt st.current.transient).get address key)), st)
  | .setTransient address key value => st.setSlot st.current.transient address key value
  | command =>
    if st.isOpen then st.onOpen command
    else match command with
    | .destroyEmpty [] => (.ok .done, st)
    | _ => (.error .missingComponent, st)

end Store

structure Session where
  /-- The state at the start. -/
  state : Option State
  store : Store := .ofState state

def Session.run (fork : Fork) (session : Session) (command : Command) :
    Except Fault Reply × Session :=
  let (reply, store) := session.store.run fork command
  (reply, { session with store := store })

end ExecutionLayer.State
