import ExecutionLayer.Fork
import ExecutionLayer.Word

/-! # Difficulty

The difficulty follows the time between blocks. On top of it comes a term that doubles every
100000 blocks, which forks have delayed again and again.
-/
namespace ExecutionLayer.Difficulty

def minimum : Nat := 131072

def delay (fork : Fork) : Nat :=
  if fork < Fork.byzantium then 0
  else if fork < Fork.constantinople then 3000000
  else if fork < Fork.muirGlacier then 5000000
  else if fork < Fork.london then 9000000
  else if fork < Fork.arrowGlacier then 9700000
  else if fork < Fork.grayGlacier then 10700000
  else 11400000

/-- The term that doubles; absent in the first two periods. -/
def growth (fork : Fork) (number : Nat) : Nat :=
  let periods := ((number : Int) - delay fork).fdiv 100000 - 2
  if 0 ≤ periods then Nat.pow 2 periods.toNat else 0

/-- At first the difficulty went up or down by a fixed part. -/
def byThreshold (time parentTime : Word) (parentDifficulty : Nat) : Except Fault Nat :=
  let step := parentDifficulty / 2048
  if Word.limit ≤ parentTime.toNat + 13 then .error .overflow
  else if time.toNat < parentTime.toNat + 13 then .ok (parentDifficulty + step)
  else .ok (parentDifficulty - step)

/-- The time since the parent in units of the given length counts against `base`, down to -99. -/
def byDistance (base : Int) (unit : Nat) (time parentTime : Word) (parentDifficulty : Nat) :
    Except Fault Int :=
  if time.toNat < parentTime.toNat then .error .overflow
  else
    let elapsed : Nat := (time.toNat - parentTime.toNat) / unit
    .ok (parentDifficulty + (parentDifficulty / 2048 : Nat) * max (base - elapsed) (-99))

def adjusted (fork : Fork) (time parentTime : Word) (parentDifficulty : Nat)
    (parentHasOmmers : Bool) : Except Fault Int :=
  if fork < Fork.homestead then (byThreshold time parentTime parentDifficulty).map Int.ofNat
  else if fork < Fork.byzantium then byDistance 1 10 time parentTime parentDifficulty
  else byDistance (if parentHasOmmers then 2 else 1) 9 time parentTime parentDifficulty

def expected (fork : Fork) (number : Nat) (time parentTime : Word) (parentDifficulty : Nat)
    (parentHasOmmers : Bool) : Except Fault Nat := do
  let difficulty ← adjusted fork time parentTime parentDifficulty parentHasOmmers
  return (max (difficulty + growth fork number) minimum).toNat

end ExecutionLayer.Difficulty
