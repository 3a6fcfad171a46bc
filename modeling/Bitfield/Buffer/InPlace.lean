import Bitfield.Buffer.Access

/-!
Writing a buffer in place. A byte is replaced in the buffer itself once its place is known, and what
fails before that, or after it, fails with the buffer as it is then.
-/

namespace Bitfield.Buffer

variable {order : ByteOrder}

def setInPlace (b : Buffer order) (index : Nat) (x : Byte) : Outcome Unit × Buffer order :=
  match b.offset index with
  | .error e => (.error e, b)
  | .ok place =>
    if h : place < b.data.size then (.ok (), ⟨b.data.set place x h⟩) else (fault .outside, b)

def modifyInPlace (b : Buffer order) (index : Nat) (change : Byte → Byte) :
    Outcome Unit × Buffer order :=
  match b.get index with
  | .error e => (.error e, b)
  | .ok x => b.setInPlace index (change x)

/-- The answer to an access and the buffer after it. -/
def accessInPlace (b : Buffer order) (a : Access) : Outcome Answer × Buffer order :=
  match a with
  | .get _ | .byte _ | .low | .high => ((b.access a).1, b)
  | .set index x =>
    let (outcome, c) := b.setInPlace index x
    (outcome.map fun _ => .done, c)
  | .modify index change =>
    let (outcome, c) := b.modifyInPlace index change
    (outcome >>= fun _ => (c.get index).map .byte, c)
  | .put index x =>
    let (outcome, c) := b.setInPlace index x
    (outcome.insist.map fun _ => .done, c)
  | .modifyLow change =>
    let (outcome, c) := b.modifyInPlace 0 change
    (outcome.optional.map fun found => .changed found.isSome, c)
  | .modifyHigh change =>
    if b.size = 0 then
      (.ok (.changed false), b)
    else
      let (outcome, c) := b.modifyInPlace (b.size - 1) change
      (outcome.optional.map fun found => .changed found.isSome, c)

theorem setInPlace_eq (b : Buffer order) (index : Nat) (x : Byte) :
    b.setInPlace index x = (b.set index x).atOnce b := by
  rw [setInPlace, set]
  cases b.offset index with
  | error e => rfl
  | ok place =>
      simp only [Outcome.ok_bind]
      split <;> rfl

theorem modifyInPlace_eq (b : Buffer order) (index : Nat) (change : Byte → Byte) :
    b.modifyInPlace index change = (b.modify index change).atOnce b := by
  rw [modifyInPlace, modify]
  cases b.get index with
  | error e => rfl
  | ok x => exact b.setInPlace_eq index (change x)

end Bitfield.Buffer
