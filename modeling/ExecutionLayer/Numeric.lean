import ExecutionLayer.Integer

/-! # Small numeric functions -/
namespace ExecutionLayer.Numeric

def sign (i : Int) : Int := if i < 0 then -1 else if i = 0 then 0 else 1

/-- Whether no number from `x` on whose square is at most `n` divides `n`. -/
def noDivisorFrom (n x : Nat) : Bool :=
  if h : x * x ≤ n ∧ 0 < x then
    if n % x = 0 then false else noDivisorFrom n (x + 1)
  else true
termination_by n + 1 - x
decreasing_by
  have : x ≤ x * x := Nat.le_mul_of_pos_left x h.2
  omega

def isPrime (n : Nat) : Bool := 1 < n && noDivisorFrom n 2

/-- Primality of any integer whose square root has a floating-point approximation. -/
def primality (i : Int) : Except Fault Bool :=
  if i < (Nat.pow 2 1024 : Int) - Nat.pow 2 970 then .ok (isPrime i.toNat) else .error .overflow

/-- Sums the terms of `expTaylor`: `term` is the `i`-th one and `sum` all those before it. -/
def expTaylor.loop (numerator denominator : Nat) (i term sum : Nat) : Nat :=
  if _h : 0 < term ∧ 0 < denominator ∧ 0 < i then
    expTaylor.loop numerator denominator (i + 1) (term * numerator / (denominator * i)) (sum + term)
  else sum
termination_by (numerator / denominator + 1 - i, term)
decreasing_by
  by_cases le : i ≤ numerator / denominator
  · exact Prod.Lex.left _ _ (by omega)
  · have eq : numerator / denominator + 1 - (i + 1) = numerator / denominator + 1 - i := by omega
    rw [eq]
    refine Prod.Lex.right _ ?_
    have small : numerator < denominator * i := by
      have := (Nat.div_lt_iff_lt_mul _h.2.1).1 (Nat.lt_of_not_le le)
      rwa [Nat.mul_comm] at this
    exact Nat.div_lt_of_lt_mul (by
      rw [Nat.mul_comm (denominator * i)]
      exact Nat.mul_lt_mul_of_pos_left small _h.1)

/-- Approximates `factor * e ^ (numerator / denominator)` by its Taylor series, each term rounded
down, until a term vanishes. -/
def expTaylor (factor numerator denominator : Nat) : Except Fault Nat :=
  if denominator = 0 then .error .divisionByZero
  else .ok (expTaylor.loop numerator denominator 1 (factor * denominator) 0 / denominator)

/-- Reports an invalid value as the fault asked for. Other faults stay what they are, so in
particular an overflow stays an overflow. -/
def reportInvalid (asked : Option Fault) : Except Fault Word → Except Fault Word
  | .error .invalidValue => .error (asked.getD .invalidValue)
  | result => result

/-- Combines numbers from left to right with partial results of the first number's kind. -/
def fold (op : Integer.Operator) (kind : Integer.Kind) (acc : Nat) :
    List Nat → Except Fault Nat
  | [] => .ok acc
  | n :: rest => do
    match ← Integer.apply kind op .left acc n with
    | .number i => fold op kind i.toNat rest
    | _ => throw .wrongType

def sumWord (asked : Option Fault) : List (Integer.Kind × Nat) → Except Fault Word
  | [] => .ok 0
  | (kind, n) :: rest =>
    reportInvalid asked do Word.ofNat? (← fold .add kind n (rest.map (·.2)))

/-- The product as a word; there is none of no numbers. -/
def productWord (asked : Option Fault) : List (Integer.Kind × Nat) → Except Fault Word
  | [] => .error .indexOutOfRange
  | (kind, n) :: rest =>
    reportInvalid asked do Word.ofNat? (← fold .mul kind n (rest.map (·.2)))

/-- Cuts a string into pieces of four bytes, of which the last may be shorter, and reads each as a
little-endian number. -/
def ofBytesLittle (b : Bytes) : List Nat :=
  (List.range ((b.size + 3) / 4)).map fun i =>
    Bytes.toNatLittle (b.extract (4 * i) (4 * i + 4))

def toBytesLittle (words : List Nat) : Bytes :=
  words.foldl (fun b n => b ++ Bytes.ofNatLittle 4 n) ByteArray.empty

def ofDigits32 (words : List Nat) : Nat := (toBytesLittle words).toNatLittle

end ExecutionLayer.Numeric
