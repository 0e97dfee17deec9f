import ExecutionLayer.AltBn128.Extension

/-! # Points on the curves `y² = x³ + b`

The pair of zeros, which solves no such equation with `b ≠ 0`, stands for the point at infinity.
-/
namespace ExecutionLayer.AltBn128

structure Point (F : Type) where
  (x y : F)
deriving DecidableEq

namespace Point

open Coordinate

variable {F : Type} [Coordinate F]

def infinity : Point F := ⟨zero, zero⟩

def isInfinity (p : Point F) : Bool := p.x = zero && p.y = zero

/-- Whether the coordinates solve the equation or stand for infinity. -/
def onCurve (p : Point F) : Bool :=
  p.isInfinity || p.y * p.y - p.x * p.x * p.x - curve = (zero : F)

def make (x y : F) : Except Fault (Point F) :=
  let p : Point F := ⟨x, y⟩
  if p.onCurve then .ok p else .error .offCurve

/-- Doubles along the tangent. Infinity is recognised over the base field only: elsewhere the slope
of the tangent at infinity is asked for, which does not exist. -/
def double (p : Point F) : Except Fault (Point F) := do
  if isNumberZero p.x && isNumberZero p.y then return p
  let slope ← div (ofBase 3 * (p.x * p.x)) (ofBase 2 * p.y)
  let x := slope * slope - p.x - p.x
  return ⟨x, slope * (p.x - x) - p.y⟩

def add (p q : Point F) : Except Fault (Point F) := do
  if p.isInfinity then return q
  if q.isInfinity then return p
  if p.x = q.x then
    if p.y = q.y then p.double else return infinity
  else
    let slope ← div (q.y - p.y) (q.x - p.x)
    let x := slope * slope - p.x - q.x
    return ⟨x, slope * (p.x - x) - p.y⟩

/-- Adds `n` times `p` to `acc`. The double of `p` is formed even if it is not needed any more. -/
def mulBy.loop (n : Nat) (p acc : Point F) : Except Fault (Point F) := do
  if _h : n = 0 then return acc
  else
    let acc ← if n % 2 = 1 then acc.add p else pure acc
    mulBy.loop (n / 2) (← p.add p) acc
termination_by n
decreasing_by omega

def mulBy (p : Point F) (n : Nat) : Except Fault (Point F) := mulBy.loop n p infinity

end Point

end ExecutionLayer.AltBn128
