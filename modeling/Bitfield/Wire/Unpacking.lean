import Bitfield.Wire
import Bitfield.Wire.Chunks
import Bitfield.Wire.Event

/-!
Unpacking: the bits of a wire, from the first to the last, are delivered to the fields one after the
other, to each from its top bit on. The wire itself does not change.
-/

namespace Bitfield.Wire

/-- A wire that is being read: how many bits are delivered, and the steps so far. -/
structure Unpacking where
  wire : Array Byte
  position : Nat
  events : List Event

namespace Unpacking

def start (wire : Array Byte) (fields : Nat) : Unpacking :=
  ⟨wire, 0, [.unpacking wire.size fields]⟩

/-- The next `length` bits of the wire, which have to lie in one byte. -/
def peek (u : Unpacking) (length : Nat) : Outcome Byte := do
  let gap ← Checked.sub 8 length
  let mask ← Word.intervalMask 8 gap length 0
  match u.wire[u.position / 8]? with
  | none => fault .outside
  | some x => do
    let below ← Checked.sub (8 - u.position % 8) length
    let low ← Checked.shiftRight x below
    .ok (low &&& mask)

def give (u : Unpacking) (field : Nat) (chunk : Chunk) (bits : Byte) : Unpacking :=
  { u with events := u.events ++ [.given field chunk bits] }

def advance (u : Unpacking) (length : Nat) : Unpacking :=
  let events :=
    if (u.position + length) % 8 = 0 then u.events ++ [.consumed (u.position / 8)] else u.events
  ⟨u.wire, u.position + length, events⟩

variable {φ : Type} [WritableField φ]

/-- Gives a field chunks one after the other, up to the first failure. -/
def moveChunks (index : Nat) : List Chunk → φ → Unpacking → Outcome Unit × φ × Unpacking
  | [], field, u => (.ok (), field, u)
  | chunk :: rest, field, u =>
    match u.peek chunk.length with
    | .error e => (.error e, field, u)
    | .ok bits =>
      match WritableField.write field chunk bits with
      | (.error e, field) => (.error e, field, u.give index chunk bits)
      | (.ok (), field) =>
        moveChunks index rest field ((u.give index chunk bits).advance chunk.length)

/-- Unpacks into fields one after the other, the first of them numbered `index`, up to the first
failure. -/
def moveFields (index : Nat) : List φ → Unpacking → Outcome Unit × List φ × Unpacking
  | [], u => (.ok (), [], u)
  | field :: rest, u =>
    match moveChunks index (chunks u.position (ReadableField.width field)) field u with
    | (.error e, field, u) => (.error e, field :: rest, u)
    | (.ok (), field, u) =>
      let (outcome, rest, u) := moveFields (index + 1) rest u
      (outcome, field :: rest, u)

end Unpacking

/-- Unpacks a wire into fields. Fields that do not take up the wire exactly are refused before any
request. -/
def unpack {φ : Type} [WritableField φ] (wire : Array Byte) (fields : List φ) : Run φ :=
  match checkCapacity fields wire.size with
  | .error e => ⟨.error e, wire, fields, []⟩
  | .ok () =>
    let (outcome, fields, u) := Unpacking.moveFields 0 fields (.start wire fields.length)
    ⟨outcome, wire, fields, u.events⟩

end Bitfield.Wire
