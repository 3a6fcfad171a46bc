import Bitfield.Failure

/-!
Arithmetic on indices and counts, and shifts, that fault where they leave their range. Indices,
lengths and widths have 64 bits; shift counts and the parts of a mask have 32.
-/

namespace Bitfield

/-- The first number that `bits` bits do not hold: two to the power `bits`. -/
def limit (bits : Nat) : Nat :=
  Nat.pow 2 bits

theorem limit_add_eight (bits : Nat) : limit (bits + 8) = 256 * limit bits := by
  rw [limit, limit, Nat.pow_eq, Nat.pow_eq, Nat.pow_add, Nat.mul_comm]

/-- Bits of an index, a length or a width. -/
def indexBits : Nat := 64

/-- Bits of a shift count. -/
def countBits : Nat := 32

/-- The lowest `bits` bits of a number, for a width that is handed on as a smaller one. -/
def narrow (bits a : Nat) : Nat :=
  a % limit bits

/-- The number itself, or the largest that `bits` bits hold. -/
def saturate (bits a : Nat) : Nat :=
  min a (limit bits - 1)

namespace Checked

def add (bits a b : Nat) : Outcome Nat :=
  if a + b < limit bits then .ok (a + b) else fault .overflow

def mul (bits a b : Nat) : Outcome Nat :=
  if a * b < limit bits then .ok (a * b) else fault .overflow

def sub (a b : Nat) : Outcome Nat :=
  if b ≤ a then .ok (a - b) else fault .overflow

def shiftLeft {w : Nat} (x : BitVec w) (count : Nat) : Outcome (BitVec w) :=
  if count < w then .ok (x <<< count) else fault .shiftCount

/-- A zero-filling shift toward the low end by less than the width. -/
def shiftRight {w : Nat} (x : BitVec w) (count : Nat) : Outcome (BitVec w) :=
  if count < w then .ok (x >>> count) else fault .shiftCount

theorem add_of_lt {bits a b : Nat} (h : a + b < limit bits) :
    add bits a b = .ok (a + b) :=
  if_pos h

theorem mul_of_lt {bits a b : Nat} (h : a * b < limit bits) :
    mul bits a b = .ok (a * b) :=
  if_pos h

theorem sub_of_le {a b : Nat} (h : b ≤ a) : sub a b = .ok (a - b) :=
  if_pos h

theorem shiftLeft_of_lt {w count : Nat} (x : BitVec w) (h : count < w) :
    shiftLeft x count = .ok (x <<< count) :=
  if_pos h

theorem shiftRight_of_lt {w count : Nat} (x : BitVec w) (h : count < w) :
    shiftRight x count = .ok (x >>> count) :=
  if_pos h

end Checked

end Bitfield
