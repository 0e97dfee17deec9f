import ExecutionLayer.Crypto.Keccak
import ExecutionLayer.Trie.Content

/-! # Sessions

A session applies commands to the latest of a stack of tries. A copy is put on the stack and can be
dropped again, which leaves the one it was made from as it was.
-/
namespace ExecutionLayer.Trie

inductive Command where
  | set (key : Bytes) (value : Content)
  | get (key : Bytes)
  | copy
  | drop
  | root
  | node

inductive Reply where
  | size (n : Nat)
  | value (c : Content)
  | hash (h : Hash)
  | node (n : Option Node)

structure Session where
  current : Trie Content
  earlier : List (Trie Content) := []
  /-- The root that every account's storage is taken to have. -/
  storageRoot : Option Hash := none

namespace Session

/-- Makes another trie the current one and reports its size. -/
def moveTo (session : Session) (t : Trie Content) (earlier : List (Trie Content)) :
    Reply × Session :=
  (.size t.size, { session with current := t, earlier := earlier })

/-- Applies a command, which leaves the session as it was if it fails. -/
def run (session : Session) (command : Command) : Except Fault (Reply × Session) := do
  let t := session.current
  let encode := Content.encode keccak256 session.storageRoot
  match command with
  | .set key value => return session.moveTo (t.set key value) session.earlier
  | .get key => return (.value (t.get key), session)
  | .copy => return session.moveTo t (t :: session.earlier)
  | .drop =>
    match session.earlier with
    | [] => throw .indexOutOfRange
    | previous :: rest => return session.moveTo previous rest
  | .root => return (.hash (← t.root keccak256 encode), session)
  | .node => return (.node (← t.node keccak256 encode), session)

end Session

end ExecutionLayer.Trie
