import ExecutionLayer.AltBn128.Base

/-! # Extensions of the base field

Elements are polynomials of bounded degree over the base field, least coefficient first. A monic
modulus is given by its coefficients below the leading one. The quadratic extension is taken modulo
`x² + 1` and the one of degree twelve modulo `x¹² - 18 x⁶ + 82`.
-/
namespace ExecutionLayer.AltBn128

abbrev Poly (d : Nat) := Vector Base d

namespace Poly

variable {d : Nat}

def ofBase (a : Base) : Poly d := Vector.ofFn fun i => if i.val = 0 then a else 0

def coeff (a : Poly d) (i : Nat) : Base := a[i]?.getD 0

def add (a b : Poly d) : Poly d := Vector.ofFn fun i => a[i] + b[i]

def sub (a b : Poly d) : Poly d := Vector.ofFn fun i => a[i] - b[i]

def neg (a : Poly d) : Poly d := a.map fun x => -x

def scale (q : Base) (a : Poly d) : Poly d := a.map fun x => q * x

/-- The sum of the products `a i * b (k - i)` over `i` below the last argument. -/
def convolve (a b : Poly d) (k : Nat) : Nat → Nat
  | 0 => 0
  | n + 1 =>
    if n ≤ k then convolve a b k n + (coeff a n).val * (coeff b (k - n)).val
    else convolve a b k n

def product (a b : Poly d) : Poly (2 * d) :=
  Vector.ofFn fun k => Base.ofNat (convolve a b k.val d)

/-- Replaces the term of degree `i`, which is at least `d`, by terms of lower degree. -/
def reduceTerm (modulus : Poly d) {n : Nat} (p : Poly n) (i : Nat) : Poly n :=
  Vector.ofFn fun j =>
    if i - d ≤ j.val && j.val < i then p[j] - coeff p i * coeff modulus (j.val - (i - d)) else p[j]

def degreesDown (hi lo : Nat) : List Nat := (List.range' lo (hi - lo)).reverse

def mulMod (modulus : Poly d) (a b : Poly d) : Poly d :=
  let c := (degreesDown (2 * d) d).foldl (reduceTerm modulus) (product a b)
  Vector.ofFn fun i => coeff c i.val

/-- The greatest index below `n` at which the coefficient is not zero. -/
def topBelow (a : Poly d) : Nat → Option Nat
  | 0 => none
  | n + 1 => if coeff a n = 0 then topBelow a n else some n

theorem topBelow_lt {a : Poly d} {n k : Nat} (h : topBelow a n = some k) : k < n := by
  induction n with
  | zero => cases h
  | succ n ih =>
    unfold topBelow at h
    split at h
    · exact Nat.lt_succ_of_lt (ih h)
    · cases h
      exact Nat.lt_succ_self _

def degree (a : Poly d) : Except Fault Nat :=
  match topBelow a d with
  | some k => .ok k
  | none => .error .zeroDegree

/-- `a` less `q` times `b` moved up by `k` places; what leaves the polynomial is dropped. -/
def subShifted (k : Nat) (q : Base) (a b : Poly d) : Poly d :=
  Vector.ofFn fun i => if k ≤ i.val then a[i] - q * coeff b (i.val - k) else a[i]

/-- A remainder of Euclid's algorithm with the factor that belongs to it and its degree. -/
structure Remainder (d : Nat) where
  value : Poly d
  factor : Poly d
  degree : Nat

def Remainder.cancel (a b : Remainder d) : Poly d × Poly d :=
  let q := coeff a.value a.degree * Base.inverse (coeff b.value b.degree)
  let k := a.degree - b.degree
  (subShifted k q a.value b.value, subShifted k q a.factor b.factor)

/-- Why a factor that is not one is refused in the second sequence: the coefficients are repeated as
often as it says, once for each of them, and are too many afterwards if there can be so many at
all. -/
def refusal (d : Nat) (q : Base) : Fault :=
  if Capacity.limit ≤ q.val then .overflow
  else if Capacity.addressable < 8 * d * Nat.pow q.val d then .outOfMemory
  else .brokenInvariant

/-- Euclid's algorithm down to a constant. If the constant turns up in the first sequence, its
factor is scaled to the inverse. In the second sequence it has to be one already. -/
def euclid (a b : Remainder d) : Except Fault (Poly d) :=
  if a.degree = 0 then .ok (scale (Base.inverse (coeff a.value 0)) a.factor)
  else if b.degree = 0 then
    let q := Base.inverse (coeff b.value 0)
    if q = 1 then .ok b.factor else .error (refusal d q)
  else if a.degree < b.degree then
    let (value, factor) := b.cancel a
    match _h : topBelow value b.degree with
    | some degree => euclid a ⟨value, factor, degree⟩
    | none => .error .indexOutOfRange
  else
    let (value, factor) := a.cancel b
    match _h : topBelow value a.degree with
    | some degree => euclid ⟨value, factor, degree⟩ b
    | none => .error .indexOutOfRange
termination_by a.degree + b.degree
decreasing_by
  · have := topBelow_lt _h
    omega
  · have := topBelow_lt _h
    omega

/-- The inverse modulo the modulus by the extended algorithm of Euclid. The first division has the
leading term of the modulus on one side, which is not part of its coefficients. -/
def inverseMod (modulus : Poly d) (a : Poly d) : Except Fault (Poly d) := do
  let degree ← a.degree
  let q := Base.inverse (coeff a degree)
  let value := subShifted (d - degree) q modulus a
  let factor := subShifted (d - degree) q (ofBase 0) (ofBase 1)
  match topBelow value d with
  | some top => euclid ⟨value, factor, top⟩ ⟨a, ofBase 1, degree⟩
  | none => .error .indexOutOfRange

end Poly

structure Quadratic where
  coefficients : Poly 2
deriving DecidableEq

structure Dodecic where
  coefficients : Poly 12
deriving DecidableEq

class Coordinate (F : Type) extends Add F, Sub F, Mul F, Neg F where
  ofBase : Base → F
  inverse : F → Except Fault F
  /-- The coefficient `b` of the curve `y² = x³ + b` over the field. -/
  curve : F
  /-- Whether the element is the number zero; only elements of the base field are numbers. -/
  isNumberZero : F → Bool
  decEq : DecidableEq F

instance {F : Type} [Coordinate F] : DecidableEq F := Coordinate.decEq

namespace Coordinate

variable {F : Type} [Coordinate F]

def zero : F := ofBase 0

def one : F := ofBase 1

def div (a b : F) : Except Fault F := do return a * (← inverse b)

def pow.loop (n : Nat) (square acc : F) : F :=
  if _h : n = 0 then acc
  else pow.loop (n / 2) (square * square) (if n % 2 = 1 then acc * square else acc)
termination_by n
decreasing_by omega

def pow (a : F) (n : Nat) : F := pow.loop n a one

def power (a : F) (i : Int) : Except Fault F :=
  if 0 ≤ i then .ok (pow a i.toNat) else do return pow (← inverse a) (-i).toNat

end Coordinate

instance : Coordinate Base where
  ofBase a := a
  inverse := Base.inverse?
  curve := 3
  isNumberZero a := a = 0
  decEq := inferInstance

namespace Quadratic

def modulus : Poly 2 := ⟨#[1, 0], rfl⟩

instance : Add Quadratic := ⟨fun a b => ⟨a.coefficients.add b.coefficients⟩⟩

instance : Sub Quadratic := ⟨fun a b => ⟨a.coefficients.sub b.coefficients⟩⟩

instance : Neg Quadratic := ⟨fun a => ⟨a.coefficients.neg⟩⟩

instance : Mul Quadratic := ⟨fun a b => ⟨Poly.mulMod modulus a.coefficients b.coefficients⟩⟩

def ofBase (a : Base) : Quadratic := ⟨Poly.ofBase a⟩

def make (a b : Base) : Quadratic := ⟨⟨#[a, b], rfl⟩⟩

def inverse (a : Quadratic) : Except Fault Quadratic :=
  (Poly.inverseMod modulus a.coefficients).map Quadratic.mk

/-- The quotient of three and `9 + i`. -/
def curve : Quadratic :=
  make 19485874751759354771024239261021720505790618469301721065564631296452457478373
    266929791119991161246907387137283842545076965332900288569378510910307636690

instance : Coordinate Quadratic where
  ofBase := ofBase
  inverse := inverse
  curve := curve
  isNumberZero _ := false
  decEq := inferInstance

def frobeniusTable : Vector Quadratic 2 :=
  Vector.ofFn fun i => Coordinate.pow ⟨Vector.ofFn fun j => if i = j then 1 else 0⟩ prime

def frobenius (a : Quadratic) : Quadratic :=
  (List.finRange 2).foldl
    (fun sum i => sum + ⟨frobeniusTable[i].coefficients.scale a.coefficients[i]⟩) (ofBase 0)

end Quadratic

namespace Dodecic

def modulus : Poly 12 := ⟨#[82, 0, 0, 0, 0, 0, -18, 0, 0, 0, 0, 0], rfl⟩

/-- Replaces the term of degree `i` by terms of degrees `i - 6` and `i - 12`. -/
def reduceTerm (c : Poly 24) (i : Nat) : Poly 24 :=
  let q := c.coeff i
  let c : Poly 24 := c.setIfInBounds (i - 6) (c.coeff (i - 6) + q * 18)
  c.setIfInBounds (i - 12) (c.coeff (i - 12) - q * 82)

/-- The product, which uses that the modulus has three terms only. -/
def mul (a b : Dodecic) : Dodecic :=
  let c := (Poly.degreesDown 23 12).foldl reduceTerm (a.coefficients.product b.coefficients)
  ⟨Vector.ofFn fun i => c.coeff i.val⟩

instance : Add Dodecic := ⟨fun a b => ⟨a.coefficients.add b.coefficients⟩⟩

instance : Sub Dodecic := ⟨fun a b => ⟨a.coefficients.sub b.coefficients⟩⟩

instance : Neg Dodecic := ⟨fun a => ⟨a.coefficients.neg⟩⟩

instance : Mul Dodecic := ⟨mul⟩

def ofBase (a : Base) : Dodecic := ⟨Poly.ofBase a⟩

def inverse (a : Dodecic) : Except Fault Dodecic :=
  (Poly.inverseMod modulus a.coefficients).map Dodecic.mk

instance : Coordinate Dodecic where
  ofBase := ofBase
  inverse := inverse
  curve := ofBase 3
  isNumberZero _ := false
  decEq := inferInstance

def root : Dodecic := ⟨⟨#[0, 1, 0, 0, 0, 0, 0, 0, 0, 0, 0, 0], rfl⟩⟩

def frobeniusTable : Vector Dodecic 12 :=
  Vector.ofFn fun i => Coordinate.pow ⟨Vector.ofFn fun j => if i = j then 1 else 0⟩ prime

def frobenius (a : Dodecic) : Dodecic :=
  (List.finRange 12).foldl
    (fun sum i => sum + ⟨frobeniusTable[i].coefficients.scale a.coefficients[i]⟩) (ofBase 0)

end Dodecic

end ExecutionLayer.AltBn128
