import ExecutionLayer.AltBn128.Curve

/-! # The pairing

Points of the curve and of its twist are embedded into the curve over the extension of degree
twelve. Miller's loop collects the values of lines, and the final power makes the result unique.
-/
namespace ExecutionLayer.AltBn128

open Coordinate

def ateCount : Nat := 29793968203157093289

/-- Embeds the quadratic extension: its imaginary unit is `x⁶ - 9`. -/
def Quadratic.embed (a : Quadratic) : Dodecic :=
  .ofBase (a.coefficients.coeff 0) +
    .ofBase (a.coefficients.coeff 1) * (pow Dodecic.root 6 - .ofBase 9)

def embedPoint (p : Point Base) : Except Fault (Point Dodecic) :=
  Point.make (.ofBase p.x) (.ofBase p.y)

def twist (p : Point Quadratic) : Except Fault (Point Dodecic) :=
  Point.make (p.x.embed * pow Dodecic.root 2) (p.y.embed * pow Dodecic.root 3)

/-- The value at `t` of the line through `p` and `q`. If they are equal, it is the tangent, whose
slope is given. The point `t` is looked at last. -/
def lineWith {F : Type} [Coordinate F] (tangent : Except Fault F) (p q : Point F)
    (t : Except Fault (Point F)) : Except Fault F := do
  if p.x = q.x && p.y ≠ q.y then return (← t).x - p.x
  let slope ← if p.x = q.x then tangent else div (q.y - p.y) (q.x - p.x)
  let t ← t
  return slope * (t.x - p.x) - (t.y - p.y)

def tangent (p : Point Dodecic) : Except Fault Dodecic :=
  div (.ofBase 3 * (p.x * p.x)) (.ofBase 2 * p.y)

def line (p q t : Point Dodecic) : Except Fault Dodecic := lineWith (tangent p) p q (.ok t)

/-- The loop over the given number of low bits of the loop count less one. -/
def millerSteps (q p : Point Dodecic) :
    Nat → Point Dodecic → Dodecic → Except Fault (Point Dodecic × Dodecic)
  | 0, r, f => .ok (r, f)
  | i + 1, r, f => do
    let f := f * f * (← line r r p)
    let r ← r.double
    if (ateCount - 1).testBit i then
      let f := f * (← line r q p)
      millerSteps q p i (← r.add q) f
    else millerSteps q p i r f

def millerLoop (q p : Point Dodecic) : Except Fault Dodecic := do
  if p.isInfinity || q.isInfinity then return .ofBase 1
  let (r, f) ← millerSteps q p 64 q (.ofBase 1)
  require (r = (← q.mulBy (ateCount - 1))) .brokenInvariant
  let q1 ← Point.make q.x.frobenius q.y.frobenius
  let q2 ← Point.make q1.x.frobenius (-q1.y.frobenius)
  let f := f * (← line r q1 p)
  let r ← r.add q1
  let f := f * (← line r q2 p)
  return pow f ((Nat.pow prime 12 - 1) / order)

def pairing (q : Point Quadratic) (p : Point Base) : Except Fault Dodecic := do
  millerLoop (← twist q) (← embedPoint p)

end ExecutionLayer.AltBn128
