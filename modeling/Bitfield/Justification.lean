import Bitfield.BitString
import Bitfield.Log
import Bitfield.Register.Basic

/-!
Moving the bits of a big-endian register to the start of its buffer, which makes them a bit string,
and moving those of a bit string back to the end. Both work in place and byte by byte: a byte keeps
most of its own bits and takes the rest from one neighbour, which the direction of the loop has not
changed yet.
-/

namespace Bitfield

/-- A byte moved up by `shift` bits, with the highest bits of the byte below it moved in. -/
def moveUp (x below : Byte) (shift : Nat) : Outcome Byte := do
  let kept ← Checked.sub 8 shift
  let own ← Word.justifyLeft x kept
  let carried ← Word.justifyRight below shift
  .ok (own ||| carried)

/-- A byte moved down by `shift` bits, with the lowest bits of the byte above it moved in. -/
def moveDown (x above : Byte) (shift : Nat) : Outcome Byte := do
  let kept ← Checked.sub 8 shift
  let own ← Word.justifyRight x kept
  let carried ← Word.justifyLeft above shift
  .ok (own ||| carried)

namespace Register

/-- One step toward the start: byte `index` takes the highest bits of the byte below it. -/
def moveByteUp (shift : Nat) (b : Buffer .big) (index : Nat) : Outcome (Buffer .big) := do
  let previous ← Checked.sub index 1
  let x ← b.byte index
  let below ← b.byte previous
  let y ← moveUp x below shift
  b.put index y

/-- The bits of a register moved to the start of the buffer, with zeros after the last of them. -/
def leftJustify {n : Nat} (r : Register .big n) : Outcome (BitString n) := do
  let b ← (List.range' 1 (r.bytes.size - 1)).reverse.foldlM (moveByteUp (padding n)) r.bytes
  let low? ← b.lowByte?
  match low? with
  | none => BitString.ofSized b
  | some low => do
    let kept ← Checked.sub 8 (padding n)
    let y ← Word.justifyLeft low kept
    let b ← b.put 0 y
    BitString.ofSized b

end Register

namespace BitString

variable {n : Nat}

/-- One step toward the end: byte `index` takes the lowest bits of the byte above it. -/
def moveByteDown (shift : Nat) (b : Buffer .big) (index : Nat) : Outcome (Buffer .big) := do
  let next ← Checked.add indexBits index 1
  let x ← b.byte index
  let above ← b.byte next
  let y ← moveDown x above shift
  b.put index y

/-- The bits of a string moved to the end of the buffer, with zeros before the first of them. -/
def rightJustify (s : BitString n) : Outcome (Register .big n) := do
  let b ← (List.range (s.bytes.size - 1)).foldlM (moveByteDown (padding n)) s.bytes
  let high? ← b.highByte?
  match high? with
  | none => Register.ofSized b
  | some high => do
    let kept ← Checked.sub 8 (padding n)
    let y ← Word.justifyRight high kept
    let b ← b.put (b.size - 1) y
    Register.ofSized b

end BitString

/-- What is logged when bits have been moved to one end of a buffer. -/
def justifiedEntry (side : String) (n : Nat) (b : Buffer .big) : Outcome Log.Entry := do
  let text ← b.render
  .ok ⟨.trace, s!"{side}-justified {n} bits by {padding n}: {text}"⟩

end Bitfield
