import ExecutionLayer.Fault
import ExecutionLayer.Text.Digit

/-! # Numerals

An integer is written as digits with an optional sign in front, single underscores between
digits, and blanks around the whole. In base sixteen the digits may start with `0x`, after which
an underscore is allowed too. Wherever a decimal digit or a blank may stand, one of any script may.
In base ten the number of digits is limited, both in reading and in writing.
-/
namespace ExecutionLayer.Text

/-- Reads digits up to the end. `gap` says that the character before was an underscore, so that a
digit has to follow. -/
def digits? (base : Nat) (gap : Bool) (acc : Nat) : List Char → Option Nat
  | [] => if gap then none else some acc
  | c :: rest =>
    if c = '_' then if gap then none else digits? base true acc rest
    else (digitValue? base c).bind fun d => digits? base false (acc * base + d) rest

/-- Drops the mark of base sixteen and the underscore after it. -/
def dropBaseMark (base : Nat) : List Char → List Char
  | '0' :: x :: rest =>
    if base = 16 && (x = 'x' || x = 'X') then
      match rest with
      | '_' :: more => more
      | _ => rest
    else '0' :: x :: rest
  | cs => cs

def maxDecimals : Nat := 4300

/-- A number of more bits has more than the most digits. -/
def maxDecimalBits : Nat := 14285

def unsigned? (base : Nat) (cs : List Char) : Option Nat :=
  match dropBaseMark base cs with
  | [] => none
  | '_' :: _ => none
  | ds =>
    if base = 10 && maxDecimals < ds.countP (· ≠ '_') then none else digits? base false 0 ds

def trim (cs : List Char) : List Char :=
  ((cs.dropWhile isAsciiBlank).reverse.dropWhile isAsciiBlank).reverse

def integer? (base : Nat) (s : String) : Option Int :=
  match trim (s.toList.map plain) with
  | '-' :: cs => (unsigned? base cs).map fun n => -(n : Int)
  | '+' :: cs => (unsigned? base cs).map Int.ofNat
  | cs => (unsigned? base cs).map Int.ofNat

/-- Writes an integer, if it has not too many digits. -/
def decimal (i : Int) : Except Fault String := do
  require (i.natAbs < Nat.pow 10 maxDecimals) .invalidValue
  return toString i

def padZeros (s : List Char) (width : Nat) : List Char :=
  List.replicate (width - s.length) '0' ++ s

end ExecutionLayer.Text
