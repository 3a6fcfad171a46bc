import Bitfield.Field.Probe
import Bitfield.Wire.Packing
import Bitfield.Wire.Unpacking

/-!
A layout: a wire buffer and the fields that share its bits, in their order on the wire. Packing and
unpacking move the bits between the two; what a failed transfer moved before it stopped stays moved.
-/

namespace Bitfield

/-- A field of a layout: a register, or a probe. -/
abbrev Slot : Type :=
  AnyRegister ⊕ Probe

/-- A wire buffer and its fields, most significant field first. -/
structure Layout where
  wire : Array Byte
  fields : List Slot

namespace Layout

/-- What a transfer reports: how it ended, and what it logged. -/
structure Report where
  outcome : Outcome Unit
  log : List Log.Entry

def pack (l : Layout) : Report × Layout :=
  let run := Wire.pack l.wire l.fields
  (⟨run.outcome, run.log⟩, ⟨run.wire, run.fields⟩)

def unpack (l : Layout) : Report × Layout :=
  let run := Wire.unpack l.wire l.fields
  (⟨run.outcome, run.log⟩, ⟨run.wire, run.fields⟩)

def withWire (l : Layout) (wire : Array Byte) : Layout :=
  { l with wire }

def append (l : Layout) (field : Slot) : Layout :=
  { l with fields := l.fields ++ [field] }

def setField (l : Layout) (index : Nat) (field : Slot) : Layout :=
  { l with fields := l.fields.set index field }

def drop? (l : Layout) (index : Nat) : Option Layout :=
  if index < l.fields.length then some { l with fields := l.fields.eraseIdx index } else none

/-- The layout with two fields exchanged, if both are there. -/
def swap? (l : Layout) (i j : Nat) : Option Layout := do
  let x ← l.fields[i]?
  let y ← l.fields[j]?
  some { l with fields := (l.fields.set i y).set j x }

end Layout

end Bitfield
