import Bitfield.Buffer

/-!
The accesses that a buffer answers, as data, so that a sequence of them is a value too. An access
that is refused or faults leaves the buffer as it was.
-/

namespace Bitfield.Buffer

inductive Access where
  | get (index : Nat)
  | set (index : Nat) (x : Byte)
  /-- Changes a byte in place and reads it, if the index is inside the buffer. -/
  | modify (index : Nat) (change : Byte → Byte)
  | byte (index : Nat)
  | put (index : Nat) (x : Byte)
  | low
  | high
  | modifyLow (change : Byte → Byte)
  | modifyHigh (change : Byte → Byte)

inductive Answer where
  | done
  | byte (x : Byte)
  /-- A byte at one end, absent in an empty buffer. -/
  | byte? (x : Option Byte)
  /-- Whether there was a byte to change. -/
  | changed (found : Bool)
deriving DecidableEq

variable {order : ByteOrder}

/-- Makes one access and tells the answer and the buffer after it. -/
def perform (b : Buffer order) : Access → Outcome (Answer × Buffer order)
  | .get index => do
    let x ← b.get index
    .ok (.byte x, b)
  | .set index x => do
    let c ← b.set index x
    .ok (.done, c)
  | .modify index change => do
    let c ← b.modify index change
    let x ← c.get index
    .ok (.byte x, c)
  | .byte index => do
    let x ← b.byte index
    .ok (.byte x, b)
  | .put index x => do
    let c ← b.put index x
    .ok (.done, c)
  | .low => do
    let x ← b.lowByte?
    .ok (.byte? x, b)
  | .high => do
    let x ← b.highByte?
    .ok (.byte? x, b)
  | .modifyLow change => do
    let c ← b.modifyLow? change
    .ok (.changed c.isSome, c.getD b)
  | .modifyHigh change => do
    let c ← b.modifyHigh? change
    .ok (.changed c.isSome, c.getD b)

/-- The answer to an access and the buffer after it, which stays as it was on a failure. -/
def access (b : Buffer order) (a : Access) : Outcome Answer × Buffer order :=
  match b.perform a with
  | .ok (answer, c) => (.ok answer, c)
  | .error e => (.error e, b)

def accessAll (b : Buffer order) : List Access → List (Outcome Answer) × Buffer order
  | [] => ([], b)
  | a :: rest =>
    let (answer, c) := b.access a
    let (answers, d) := c.accessAll rest
    (answer :: answers, d)

end Bitfield.Buffer
