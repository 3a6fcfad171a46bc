import Bitfield.IntType
import Bitfield.Register.Basic

/-!
Reading a register: as an integer of a type that is wide enough, and an interval of its bits moved
to the bottom of a word.
-/

namespace Bitfield

/-- The interval of `length` bits from bit `offset` on ends inside `bits` bits, its end being an
index itself. -/
def IntervalWithin (length offset bits : Nat) : Prop :=
  offset + length < limit indexBits ∧ offset + length ≤ bits

instance (length offset bits : Nat) : Decidable (IntervalWithin length offset bits) :=
  inferInstanceAs (Decidable (_ ∧ _))

namespace Register

variable {order : ByteOrder} {n : Nat}

/-- The value as an integer of a type at least `n` bits wide. A signed type takes bit `n - 1` for
the sign, so the result does not depend on how many bits the bytes have. -/
def read (r : Register order n) (ty : IntType) (_hwidth : n ≤ ty.width) : Outcome ty.Value := do
  let high? ← r.bytes.highByte?
  match high? with
  | none => .ok 0
  | some high => do
    let mask ← paddingMask n
    let start := ty.ofByte (~~~mask &&& high)
    let word ← r.bytes.shiftIn start ((List.range (byteCount n)).reverse.drop 1)
    if ty.signed then Word.signExtend word (narrow countBits n) else .ok word

/-- The `length` bits from bit `offset` on, moved to the bottom of a word. Only the bytes that hold
one of these bits are read. -/
def extract (r : Register order n) (w length offset : Nat) : Outcome (BitVec w) :=
  if length = 0 then
    .ok 0
  else do
    let stop ← Checked.add indexBits offset length
    let top ← Checked.sub stop 1
    let first := offset / 8
    let last := top / 8
    let lowShift := offset % 8
    if first = last then do
      let x ← r.bytes.byte first
      let low ← Checked.shiftRight x lowShift
      let mask ← Word.lowMask length
      .ok ((low &&& mask).setWidth w)
    else do
      let base ← Checked.mul indexBits last 8
      let highLength ← Checked.sub stop base
      let mask ← Word.lowMask highLength
      let high ← r.bytes.byte last
      let second ← Checked.add indexBits first 1
      let between := (List.range' second (last - second)).reverse
      let upper ← r.bytes.shiftIn ((high &&& mask).setWidth w) between
      let lowLength ← Checked.sub 8 lowShift
      let x ← r.bytes.byte first
      let low ← Checked.shiftRight x lowShift
      .ok (Word.shiftUp upper lowLength ||| low.setWidth w)

/-- The `length` bits from bit `offset` on, for an interval known to lie inside the value and to
fit the word. -/
def slice (r : Register order n) (w length offset : Nat) (_hlength : length ≤ w)
    (_hend : length + offset ≤ n) : Outcome (BitVec w) :=
  r.extract w length offset

/-- The `length` bits from bit `offset` on, refused if they do not fit the word or if the interval
ends past the value. -/
def slice? (r : Register order n) (w length offset : Nat) : Outcome (BitVec w) :=
  if w < length then refuse (.tooManyBits length w)
  else if IntervalWithin length offset n then r.extract w length offset
  else refuse (.intervalOutOfRange length offset n)

def readBits (r : Register order n) (length offset : Nat) : Outcome Byte :=
  r.slice? 8 length offset

end Register

end Bitfield
