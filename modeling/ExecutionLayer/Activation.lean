import ExecutionLayer.Fork
import ExecutionLayer.Integer

/-! # When forks become active

A fork is scheduled by block number or by timestamp, or not at all. Schedules by number come before
those by timestamp, and an unscheduled fork comes last.
-/
namespace ExecutionLayer

inductive Activation where
  | blockNumber (n : Int)
  | timestamp (t : Int)
  | unscheduled
deriving DecidableEq, Repr

namespace Activation

def isActive (a : Activation) (number time : Int) : Bool :=
  match a with
  | blockNumber n => n ≤ number
  | timestamp t => t ≤ time
  | unscheduled => false

/-- The sort of schedule and the point in it, which are compared in this order. -/
def key : Activation → Int × Int
  | blockNumber n => (0, n)
  | timestamp t => (1, t)
  | unscheduled => (2, 0)

def lt (a b : Activation) : Bool :=
  a.key.1 < b.key.1 || (a.key.1 == b.key.1 && a.key.2 < b.key.2)

def le (a b : Activation) : Bool := a.lt b || a.key == b.key

def sort (l : List Activation) : List Activation := l.mergeSort le

def hashEqual (a b : Activation) : Bool :=
  a.key.1 == b.key.1 && Integer.hashResidue a.key.2 == Integer.hashResidue b.key.2

def text : Activation → String
  | blockNumber n => s!"ByBlockNumber({n})"
  | timestamp t => s!"ByTimestamp({t})"
  | unscheduled => "Unscheduled()"

end Activation

def Fork.activation : Fork → Activation
  | frontier => .blockNumber 0
  | homestead => .blockNumber 1150000
  | daoFork => .blockNumber 1920000
  | tangerineWhistle => .blockNumber 2463000
  | spuriousDragon => .blockNumber 2675000
  | byzantium => .blockNumber 4370000
  | constantinople => .blockNumber 7280000
  | istanbul => .blockNumber 9069000
  | muirGlacier => .blockNumber 9200000
  | berlin => .blockNumber 12244000
  | london => .blockNumber 12965000
  | arrowGlacier => .blockNumber 13773000
  | grayGlacier => .blockNumber 15050000
  | paris => .blockNumber 15537394
  | shanghai => .timestamp 1681338455
  | cancun => .timestamp 1710338135

end ExecutionLayer
