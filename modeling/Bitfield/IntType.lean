import Bitfield.Word

/-!
The twelve integer types that a register is read as and written from. A value is a bit pattern of
the width of its type; the sign matters to its reading as a number, to the shift toward the low end
and to the bytes past the top.
-/

namespace Bitfield

/-- The sizes an integer type comes in; the native size is that of an index. -/
inductive Size where
  | w8 | w16 | w32 | w64 | w128 | native
deriving DecidableEq

def Size.bits : Size → Nat
  | w8 => 8
  | w16 => 16
  | w32 => 32
  | w64 => 64
  | w128 => 128
  | native => indexBits

theorem Size.bits_pos (s : Size) : 0 < s.bits := by
  cases s <;> decide

theorem Size.bits_le (s : Size) : s.bits ≤ 128 := by
  cases s <;> decide

/-- An integer type: a size, and whether its top bit counts negatively. -/
structure IntType where
  size : Size
  signed : Bool
deriving DecidableEq

namespace IntType

abbrev width (ty : IntType) : Nat :=
  ty.size.bits

/-- The bit patterns of a type. -/
abbrev Value (ty : IntType) : Type :=
  BitVec ty.width

def all : List IntType :=
  [false, true].flatMap fun signed =>
    [Size.w8, .w16, .w32, .w64, .w128, .native].map fun size => ⟨size, signed⟩

/-- The number that a bit pattern stands for. -/
def toInt (ty : IntType) (x : ty.Value) : Int :=
  if ty.signed then x.toInt else x.toNat

/-- The bit pattern of a number in the range of the type. -/
def ofInt? (ty : IntType) (v : Int) : Option ty.Value :=
  let x := BitVec.ofInt ty.width v
  if ty.toInt x = v then some x else none

/-- The pattern with a given lowest byte and zeros above it. -/
def ofByte (ty : IntType) (x : Byte) : ty.Value :=
  x.setWidth ty.width

/-- A shift toward the low end that keeps the sign of a signed value. -/
def shiftRight (ty : IntType) (x : ty.Value) (count : Nat) : Outcome ty.Value :=
  if count < ty.width then
    .ok (if ty.signed then x.sshiftRight count else x >>> count)
  else
    fault .shiftCount

/-- Byte `index` of a value, counted from the lowest; past the top every bit repeats the sign. -/
def byteAt (ty : IntType) (x : ty.Value) (index : Nat) : Outcome Byte :=
  let count := saturate countBits (index * 8)
  if count < ty.width then do
    let low ← ty.shiftRight x count
    .ok (low.setWidth 8)
  else do
    let last ← Checked.sub ty.width 1
    let sign ← ty.shiftRight x last
    .ok (sign.setWidth 8 &&& if ty.signed then BitVec.allOnes 8 else 0)

/-- Whether a value is representable in `count` bits of the same signedness. -/
def fits (ty : IntType) (x : ty.Value) (count : Nat) : Outcome Bool :=
  if ty.width ≤ count then
    .ok true
  else if count = 0 then
    .ok (x == 0)
  else if ty.signed then do
    let below ← Checked.sub count 1
    let high ← ty.shiftRight x below
    .ok (high == 0 || high == BitVec.allOnes ty.width)
  else do
    let high ← ty.shiftRight x count
    .ok (high == 0)

theorem width_pos (ty : IntType) : 0 < ty.width :=
  ty.size.bits_pos

theorem width_le (ty : IntType) : ty.width ≤ 128 :=
  ty.size.bits_le

theorem toInt_of_ofInt? {ty : IntType} {v : Int} {x : ty.Value} (h : ty.ofInt? v = some x) :
    ty.toInt x = v := by
  simp only [ofInt?] at h
  split at h
  · rename_i hv
    cases h
    exact hv
  · cases h

end IntType

structure Integer where
  type : IntType
  value : type.Value

namespace Integer

def toInt (x : Integer) : Int :=
  x.type.toInt x.value

end Integer

end Bitfield
