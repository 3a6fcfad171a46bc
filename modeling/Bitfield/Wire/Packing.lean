import Bitfield.Wire
import Bitfield.Wire.Chunks
import Bitfield.Wire.Event

/-!
Packing: the bits of all fields, one field after the other and each from its top bit on, fill a
wire from the first bit to the last. Bits are gathered in a pending byte, which is stored once it is
full.
-/

namespace Bitfield.Wire

/-- A wire that is being filled: how many bits are in, those of the byte not yet full, and the steps
so far. -/
structure Packing where
  wire : Array Byte
  position : Nat
  pending : Byte
  events : List Event

namespace Packing

def start (wire : Array Byte) (fields : Nat) : Packing :=
  ⟨wire, 0, 0, [.packing fields wire.size]⟩

def ask (p : Packing) (field : Nat) (chunk : Chunk) : Packing :=
  { p with events := p.events ++ [.asked field chunk] }

/-- The pending byte with `length` bits appended. A chunk of eight bits replaces it; bits of a
shorter chunk that are above its length are kept as they come. -/
def gather (p : Packing) (length : Nat) (bits : Byte) : Outcome Byte :=
  if length = 8 then
    .ok bits
  else do
    let above ← Checked.shiftLeft p.pending length
    .ok (above ||| bits)

/-- The state after `length` more bits, with the pending byte stored if they complete it. -/
def accept (p : Packing) (length : Nat) (bits : Byte) : Outcome Packing := do
  let pending ← p.gather length bits
  let index := p.position / 8
  if (p.position + length) % 8 = 0 then
    if h : index < p.wire.size then
      .ok ⟨p.wire.set index pending h, p.position + length, 0,
        p.events ++ [.stored index pending]⟩
    else
      fault .outside
  else
    .ok ⟨p.wire, p.position + length, pending, p.events⟩

variable {φ : Type} [ReadableField φ]

/-- Asks a field for chunks one after the other, up to the first failure. -/
def moveChunks (index : Nat) : List Chunk → φ → Packing → Outcome Unit × φ × Packing
  | [], field, p => (.ok (), field, p)
  | chunk :: rest, field, p =>
    match ReadableField.read field chunk with
    | (.error e, field) => (.error e, field, p.ask index chunk)
    | (.ok bits, field) =>
      match (p.ask index chunk).accept chunk.length bits with
      | .error e => (.error e, field, p.ask index chunk)
      | .ok p => moveChunks index rest field p

/-- Packs fields one after the other, the first of them numbered `index`, up to the first
failure. -/
def moveFields (index : Nat) : List φ → Packing → Outcome Unit × List φ × Packing
  | [], p => (.ok (), [], p)
  | field :: rest, p =>
    match moveChunks index (chunks p.position (ReadableField.width field)) field p with
    | (.error e, field, p) => (.error e, field :: rest, p)
    | (.ok (), field, p) =>
      let (outcome, rest, p) := moveFields (index + 1) rest p
      (outcome, field :: rest, p)

end Packing

/-- Packs fields into a wire. Fields that do not fill the wire exactly are refused before any
request. -/
def pack {φ : Type} [ReadableField φ] (wire : Array Byte) (fields : List φ) : Run φ :=
  match checkCapacity fields wire.size with
  | .error e => ⟨.error e, wire, fields, []⟩
  | .ok () =>
    let (outcome, fields, p) := Packing.moveFields 0 fields (.start wire fields.length)
    ⟨outcome, p.wire, fields, p.events⟩

end Bitfield.Wire
