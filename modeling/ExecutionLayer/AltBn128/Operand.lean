import ExecutionLayer.AltBn128.Pairing
import ExecutionLayer.Integer.Plain

/-! # Operations on mixed operands

Calculations name an operation and give operands whose sorts are only known when they arrive. An
operation between sorts that do not go together is either not defined, which is an answer, or a
fault. Elements of the base field are integers too, and elements of an extension are sequences of
coefficients, with what integers and sequences offer.
-/
namespace ExecutionLayer.AltBn128

open Integer (Outcome Plain Relation)

inductive Operand where
  | integer (i : Int)
  | base (a : Base)
  | quadratic (a : Quadratic)
  | dodecic (a : Dodecic)
  | point (p : Point Base)
  | twistPoint (p : Point Quadratic)
  | dodecicPoint (p : Point Dodecic)
deriving DecidableEq

inductive Answer where
  | operand (value : Operand)
  | outcome (o : Outcome)

inductive Operation where
  | add | addReflected | sub | subReflected | mul | mulReflected | div | pow | neg
  | inverse | scalarMul | degree | frobenius | toBytes | ofInteger
  | double | mulBy | infinity | zero
  | pairing | twist | embedPoint | embed | line
  | length | item | contains | count | position
  | plain (m : Plain)
  | update (op : Operation)
  | withheld
deriving DecidableEq

namespace Operand

def integer? : Operand → Option Int
  | integer i => some i
  | base a => some a.val
  | _ => none

def polyValue {d : Nat} (p : Poly d) : Rlp.Value := .seq (p.toList.map fun a => .number a.val)

def value : Operand → Rlp.Value
  | integer i => .integer i
  | base a => .number a.val
  | quadratic a => polyValue a.coefficients
  | dodecic a => polyValue a.coefficients
  | point p => .seq [.number p.x.val, .number p.y.val]
  | twistPoint p => .seq [polyValue p.x.coefficients, polyValue p.y.coefficients]
  | dodecicPoint p => .seq [polyValue p.x.coefficients, polyValue p.y.coefficients]

def coefficients? : Operand → Option (List Base)
  | quadratic a => some a.coefficients.toList
  | dodecic a => some a.coefficients.toList
  | _ => none

def notDefined : Answer := .outcome .notDefined

def ofInt (i : Int) : Answer := .operand (.integer i)

def ofTruth (b : Bool) : Answer := .outcome (.answer (.truth b))

def ofText (s : String) : Answer := .outcome (.answer (.text s))

def ofBase (a : Base) : Answer := .operand (.base a)

def ofQuadratic (a : Quadratic) : Answer := .operand (.quadratic a)

def ofDodecic (a : Dodecic) : Answer := .operand (.dodecic a)

/-- Takes the first coefficients of the other operand, whatever extension it belongs to. -/
def takePoly (d : Nat) (other : Operand) : Except Fault (Poly d) :=
  match other.coefficients? with
  | none => .error .wrongType
  | some l =>
    if d ≤ l.length then .ok (Vector.ofFn fun i => l.getD i 0) else .error .indexOutOfRange

/-- Arithmetic of an element of the base field with an integer. -/
def baseArithmetic (op : Base → Base → Base) (a : Base) (other : Operand) : Answer :=
  match other.integer? with
  | some i => ofBase (op a (Base.ofInt i))
  | none => notDefined

def mulQuadratic (a : Quadratic) (other : Operand) : Except Fault Quadratic := do
  return a * ⟨← takePoly 2 other⟩

def mulDodecic (a : Dodecic) (other : Operand) : Except Fault Dodecic := do
  return a * ⟨← takePoly 12 other⟩

def inverse : Operand → Except Fault Operand
  | base a => do return base (← a.inverse?)
  | quadratic a => do return quadratic (← a.inverse)
  | dodecic a => do return dodecic (← a.inverse)
  | _ => .error .missingComponent

def onValue (m : Plain) (self : Int) (args : List Operand) : Except Fault Answer := do
  return .outcome (← m.apply self (args.map integer?))

def hidesPlain : Plain → Bool
  | .operator .floorDiv _ | .operator .divMod _ | .operator .xor _ | .pow .right => true
  | .operator .and .left | .operator .or .left => true
  | .operator .shiftLeft .left | .operator .shiftRight .left => true
  | _ => false

def plain? : Operation → Option Plain
  | .plain m => some m
  | .add => some (.operator .add .left)
  | .addReflected => some (.operator .add .right)
  | .sub => some (.operator .sub .left)
  | .subReflected => some (.operator .sub .right)
  | .mul => some (.operator .mul .left)
  | .mulReflected => some (.operator .mul .right)
  | .div => some (.quotient .left)
  | .pow => some (.pow .left)
  | .neg => some .negate
  | .position => some .value
  | _ => none

def withInteger (i : Int) (op : Operation) (args : List Operand) : Except Fault Answer :=
  match plain? op with
  | some m => onValue m i args
  | none => .error .missingComponent

def withBase (a : Base) (op : Operation) (args : List Operand) : Except Fault Answer := do
  match op, args with
  | .add, [b] | .addReflected, [b] => return baseArithmetic (· + ·) a b
  | .sub, [b] => return baseArithmetic (· - ·) a b
  | .subReflected, [b] => return baseArithmetic (fun a b => b - a) a b
  | .mul, [b] | .mulReflected, [b] => return baseArithmetic (· * ·) a b
  | .div, [b] =>
    match ← b.inverse with
    | base i => return ofBase (a * i)
    | _ => throw .wrongType
  | .pow, [b] =>
    match b.integer? with
    | some i => return ofBase (← a.power i)
    | none => throw .wrongType
  | .neg, [] => return ofBase (-a)
  | .inverse, [] => return ofBase (← a.inverse?)
  | .toBytes, [] => return .outcome (.answer (.bytes (Bytes.ofNat 32 a.val)))
  | .zero, [] => return ofBase 0
  | .ofInteger, [b] =>
    match b.integer? with
    | some i => return ofBase (Base.ofInt i)
    | none => throw .wrongType
  | .plain m, args =>
    require (!hidesPlain m) .wrongType
    onValue m a.val args
  | .position, args => onValue .value a.val args
  | .add, _ | .addReflected, _ | .sub, _ | .subReflected, _ | .mul, _ | .mulReflected, _
  | .div, _ | .pow, _ | .neg, _ | .inverse, _ | .toBytes, _ | .zero, _ | .ofInteger, _
  | .withheld, _ => throw .wrongType
  | _, _ => throw .missingComponent

def tupleText (l : List Base) : String :=
  "(" ++ String.intercalate ", " (l.map fun a => toString a.val) ++ ")"

/-- Compares sequences by the first place at which they differ; a sequence comes behind its
beginnings. -/
def lexicographic (r : Relation) : List Base → List Base → Bool
  | a :: as, b :: bs => if a = b then lexicographic r as bs else r.holds a.val b.val
  | as, bs => r.holds as.length bs.length

/-- The place that an index denotes, where negative ones count from the end. -/
def itemAt (l : List Base) (i : Int) : Except Fault Base :=
  match l[(if i < 0 then i + l.length else i).toNat]? with
  | some a => if i < -(l.length : Int) then .error .indexOutOfRange else .ok a
  | none => .error .indexOutOfRange

/-- The hash of a sequence in 64 bits with a sign, mixed from those of the items. -/
def sequenceHash (l : List Base) : Int :=
  let mix (acc : BitVec 64) (a : Base) : BitVec 64 :=
    (acc + BitVec.ofInt 64 (Integer.hashResidue a.val) * 0xc2b2ae3d27d4eb4f).rotateLeft 31 *
      0x9e3779b185ebca87
  let start : BitVec 64 := 0x27d4eb2f165667c5
  let acc := l.foldl mix start + (BitVec.ofNat 64 l.length ^^^ (start ^^^ 3527539))
  if acc = -1 then 1546275796 else acc.toInt

def withSequence (l : List Base) (op : Operation) (args : List Operand) : Except Fault Answer := do
  let isAt (b : Operand) (a : Base) : Bool := b.integer? = some (a.val : Int)
  match op, args with
  | .plain (.compare r), [b] =>
    match b.coefficients? with
    | some m => return ofTruth (lexicographic r l m)
    | none => return notDefined
  | .plain .text, [] => return ofText (tupleText l)
  | .plain .hash, [] => return ofInt (sequenceHash l)
  | .length, [] => return ofInt l.length
  | .item, [b] =>
    match b.integer? with
    | some i => return ofInt (← itemAt l i).val
    | none => throw .wrongType
  | .contains, [b] => return ofTruth (l.any (isAt b))
  | .count, [b] => return ofInt (l.countP (isAt b))
  | .position, [b] =>
    match l.findIdx? (isAt b) with
    | some i => return ofInt i
    | none => throw .invalidValue
  | .plain (.compare _), _ | .plain .text, _ | .plain .hash, _ | .length, _ | .item, _
  | .contains, _ | .count, _ | .position, _ => throw .wrongType
  | _, _ => throw .missingComponent

/-- An exponent, which is halved until it vanishes: an element of the base field cannot be
halved. -/
def exponent (n : Operand) : Except Fault Int :=
  match n with
  | integer i => .ok i
  | base a => if a = 0 then .ok 0 else .error .wrongType
  | _ => .error .wrongType

/-- What the two extensions share; `wrap` is the constructor of the extension at hand. -/
def withPoly {F : Type} [Coordinate F] (wrap : F → Operand) (a : F) (coefficients : List Base)
    (mul : Operand → Except Fault F) (scale : Base → F) (op : Operation) (args : List Operand) :
    Except Fault Answer := do
  match op, args with
  | .mul, [b] | .mulReflected, [b] => return .operand (wrap (← mul b))
  | .div, [b] => return .operand (wrap (← mul (← b.inverse)))
  | .pow, [b] => return .operand (wrap (← Coordinate.power a (← b.exponent)))
  | .neg, [] => return .operand (wrap (-a))
  | .inverse, [] => return .operand (wrap (← Coordinate.inverse a))
  | .scalarMul, [b] =>
    match b.integer? with
    | some i => return .operand (wrap (scale (Base.ofInt i)))
    | none => throw .wrongType
  | .degree, [] =>
    match (List.range coefficients.length).reverse.find? fun i => coefficients.getD i 0 ≠ 0 with
    | some i => return ofInt i
    | none => throw .zeroDegree
  | .zero, [] => return .operand (wrap Coordinate.zero)
  | .ofInteger, [b] =>
    match b.integer? with
    | some i => return .operand (wrap (Coordinate.ofBase (Base.ofInt i)))
    | none => throw .wrongType
  | .add, _ | .addReflected, _ | .sub, _ | .subReflected, _ | .mul, _ | .mulReflected, _
  | .div, _ | .pow, _ | .neg, _ | .inverse, _ | .scalarMul, _ | .degree, _ | .frobenius, _
  | .zero, _ | .ofInteger, _ => throw .wrongType
  | _, _ => withSequence coefficients op args

def withQuadratic (a : Quadratic) (op : Operation) (args : List Operand) : Except Fault Answer := do
  match op, args with
  | .add, [quadratic b] | .addReflected, [quadratic b] => return ofQuadratic (a + b)
  | .sub, [quadratic b] => return ofQuadratic (a - b)
  | .subReflected, [quadratic b] => return ofQuadratic (b - a)
  | .add, [_] | .addReflected, [_] | .sub, [_] | .subReflected, [_] => return notDefined
  | .frobenius, [] => return ofQuadratic a.frobenius
  | _, _ =>
    withPoly quadratic a a.coefficients.toList (mulQuadratic a)
      (fun q => ⟨a.coefficients.scale q⟩) op args

def withDodecic (a : Dodecic) (op : Operation) (args : List Operand) : Except Fault Answer := do
  match op, args with
  | .add, [dodecic b] | .addReflected, [dodecic b] => return ofDodecic (a + b)
  | .sub, [dodecic b] => return ofDodecic (a - b)
  | .subReflected, [dodecic b] => return ofDodecic (b - a)
  | .add, [_] | .addReflected, [_] | .sub, [_] | .subReflected, [_] => return notDefined
  | .frobenius, [] => return ofDodecic a.frobenius
  | _, _ =>
    withPoly dodecic a a.coefficients.toList (mulDodecic a)
      (fun q => ⟨a.coefficients.scale q⟩) op args

def isPoint : Operand → Bool
  | point _ | twistPoint _ | dodecicPoint _ => true
  | _ => false

/-- A factor by which a point is multiplied. It is halved after the point has been doubled, which an
element of the base field does not allow. -/
def multiple {F : Type} [Coordinate F] (p : Point F) : Operand → Except Fault (Point F)
  | integer n => p.mulBy n.toNat
  | base n => do
    if n = 0 then return .infinity
    discard (p.add p)
    throw .wrongType
  | _ => .error .wrongType

/-- What the curves share. A point is compared with points of its own curve only; infinity may be
added to any point. -/
def withPoint {F : Type} [Coordinate F] (wrap : Point F → Operand)
    (same : Operand → Option (Point F)) (write : F → String) (p : Point F) (op : Operation)
    (args : List Operand) : Except Fault Answer := do
  match op, args with
  | .add, [b] =>
    match same b with
    | some q => return .operand (wrap (← p.add q))
    | none =>
      require b.isPoint .missingComponent
      if p.isInfinity then return .operand b else throw .wrongType
  | .double, [] => return .operand (wrap (← p.double))
  | .mulBy, [n] => return .operand (wrap (← multiple p n))
  | .plain (.compare .eq), [b] => return ofTruth (same b == some p)
  | .plain (.compare .ne), [b] => return ofTruth (same b != some p)
  | .plain (.compare _), [_] => return notDefined
  | .plain .text, [] => return ofText s!"({write p.x}, {write p.y})"
  | .infinity, [] => return .operand (wrap .infinity)
  | .add, _ | .double, _ | .mulBy, _ | .plain (.compare _), _ | .plain .text, _ | .infinity, _
  | .plain .hash, _ => throw .wrongType
  | _, _ => throw .missingComponent

def embed (a : Operand) : Except Fault Dodecic := do
  return Quadratic.embed ⟨← takePoly 2 a⟩

def coordinates : Operand → Except Fault (Operand × Operand)
  | point p => .ok (base p.x, base p.y)
  | twistPoint p => .ok (quadratic p.x, quadratic p.y)
  | dodecicPoint p => .ok (dodecic p.x, dodecic p.y)
  | _ => .error .missingComponent

def twist (a : Operand) : Except Fault (Point Dodecic) := do
  let (x, y) ← a.coordinates
  AltBn128.twist ⟨⟨← takePoly 2 x⟩, ⟨← takePoly 2 y⟩⟩

def embedPoint : Operand → Except Fault (Point Dodecic)
  | point p => AltBn128.embedPoint p
  | a => do
    discard a.coordinates
    throw .wrongType

def asPoint {F : Type} (same : Operand → Option (Point F)) (a : Operand) :
    Except Fault (Point F) := do
  match same a with
  | some p => return p
  | none =>
    discard a.coordinates
    throw .wrongType

def point? : Operand → Option (Point Base)
  | point p => some p
  | _ => none

def twistPoint? : Operand → Option (Point Quadratic)
  | twistPoint p => some p
  | _ => none

def dodecicPoint? : Operand → Option (Point Dodecic)
  | dodecicPoint p => some p
  | _ => none

/-- The value at `t` of the line through `p` and `q`. Only over the extension of degree twelve does
the curve have tangents. -/
def line (p q t : Operand) : Except Fault Answer := do
  match p, q with
  | point p, point q =>
    return ofBase (← lineWith (.error .wrongType) p q (asPoint point? t))
  | twistPoint p, twistPoint q =>
    return ofQuadratic (← lineWith (.error .indexOutOfRange) p q (asPoint twistPoint? t))
  | dodecicPoint p, dodecicPoint q =>
    return ofDodecic (← lineWith (tangent p) p q (asPoint dodecicPoint? t))
  | p, q =>
    discard p.coordinates
    discard q.coordinates
    throw .wrongType

def apply (op : Operation) (args : List Operand) : Except Fault Answer := do
  match op, args with
  | .pairing, [q, p] => return ofDodecic (← millerLoop (← q.twist) (← p.embedPoint))
  | .twist, [q] => return .operand (dodecicPoint (← q.twist))
  | .embedPoint, [p] => return .operand (dodecicPoint (← p.embedPoint))
  | .embed, [a] => return ofDodecic (← a.embed)
  | .line, [p, q, t] => line p q t
  | .pairing, _ | .twist, _ | .embedPoint, _ | .embed, _ | .line, _ => throw .wrongType
  | .update op, base a :: args => withBase a op args
  | .update op, quadratic a :: args => withQuadratic a op args
  | .update op, dodecic a :: args => withDodecic a op args
  | _, integer i :: args => withInteger i op args
  | _, base a :: args => withBase a op args
  | _, quadratic a :: args => withQuadratic a op args
  | _, dodecic a :: args => withDodecic a op args
  | _, point p :: args => withPoint point point? (fun a => toString a.val) p op args
  | _, twistPoint p :: args =>
    withPoint twistPoint twistPoint? (fun a => tupleText a.coefficients.toList) p op args
  | _, dodecicPoint p :: args =>
    withPoint dodecicPoint dodecicPoint? (fun a => tupleText a.coefficients.toList) p op args
  | _, [] => throw .missingComponent

/-- The element with the given coefficients, of which there must be exactly `d`. -/
def poly (d : Nat) (l : List Int) : Except Fault (Poly d) :=
  if l.length = d then .ok (Vector.ofFn fun i => Base.ofInt (l.getD i 0))
  else .error .brokenInvariant

end Operand

end ExecutionLayer.AltBn128
