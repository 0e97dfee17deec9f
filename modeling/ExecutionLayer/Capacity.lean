import ExecutionLayer.Fault

/-! # The size of byte strings

A size is a signed number of 64 bits, and what asks for a string of an impossible size overflows.
How much memory there is for strings is left open. Numbers and lists that no address reaches the end
of run out of memory.
-/
namespace ExecutionLayer.Capacity

/-- Sizes lie below this number, and not below its negative. -/
def limit : Nat := Nat.pow 2 63

/-- What a string takes beside its bytes. -/
def overhead : Nat := 33

/-- Addresses have 47 bits. -/
def addressable : Nat := Nat.pow 2 47

def admits (i : Int) : Bool := -(limit : Int) ≤ i && i < limit

def allot (size : Nat) : Except Fault Unit := require (size < limit) .overflow

def allotPadded (size : Nat) : Except Fault Unit := allot (size + overhead)

def size (i : Int) : Except Fault Nat := do
  require (-(limit : Int) ≤ i) .overflow
  allotPadded i.toNat
  return i.toNat

/-- Asks for a number of so many bits, in digits of 30 bits that take four bytes each. -/
def allotBits (bits : Nat) : Except Fault Unit := do
  allot (4 * (bits / 30))
  require (4 * (bits / 30) ≤ addressable) .outOfMemory

end ExecutionLayer.Capacity
