import Bitfield.Register.Writing

/-!
Fields: runs of bits of known width that are read and written in chunks of at most a byte. A field
may keep state of its own, which a request can change whether it succeeds or not. Registers are
fields, and so is whatever else a caller supplies.
-/

namespace Bitfield

/-- Neighbouring bits of a field that are requested at once: how many, and how many bits of the
field lie below them. -/
structure Chunk where
  length : Nat
  offset : Nat
deriving DecidableEq

/-- A field that answers requests for chunks, each with a byte that holds the chunk at its low
end. -/
class ReadableField (φ : Type) where
  width : φ → Nat
  read : φ → Chunk → Outcome Byte × φ

/-- A field whose chunks can also be replaced by the lowest bits of a byte. -/
class WritableField (φ : Type) extends ReadableField φ where
  write : φ → Chunk → Byte → Outcome Unit × φ

instance {order : ByteOrder} {n : Nat} : WritableField (Register order n) where
  width _ := n
  read r chunk := (r.readBits chunk.length chunk.offset, r)
  write r chunk bits :=
    match r.writeBits chunk.length chunk.offset bits with
    | .ok written => (.ok (), written)
    | .error e => (.error e, r)

structure AnyRegister where
  order : ByteOrder
  width : Nat
  register : Register order width

namespace AnyRegister

def data (r : AnyRegister) : Array Byte :=
  r.register.bytes.data

/-- A register over given bytes, set to an integer if one is given. -/
def ofArray (order : ByteOrder) (n : Nat) (data : Array Byte) (start : Option Integer) :
    Outcome AnyRegister := do
  let r ← match start with
    | none => Register.ofArray order n data
    | some x => Register.withValue order n data x
  .ok ⟨order, n, r⟩

def sameOver (r : AnyRegister) (data : Array Byte) : Outcome Bool := do
  let other ← Register.ofArray r.order r.width data
  .ok (r.register == other)

/-- The value as an integer of every type that is wide enough. -/
def readAll (r : AnyRegister) : Outcome (List Integer) := do
  let readings ← IntType.all.mapM fun ty =>
    if h : r.width ≤ ty.width then do
      let x ← r.register.read ty h
      .ok [Integer.mk ty x]
    else
      .ok []
  .ok readings.flatten

instance : WritableField AnyRegister where
  width r := r.width
  read r chunk :=
    let (outcome, after) := ReadableField.read r.register chunk
    (outcome, { r with register := after })
  write r chunk bits :=
    let (outcome, after) := WritableField.write r.register chunk bits
    (outcome, { r with register := after })

end AnyRegister

instance {α β : Type} [WritableField α] [WritableField β] : WritableField (α ⊕ β) where
  width
    | .inl a => ReadableField.width a
    | .inr b => ReadableField.width b
  read
    | .inl a, chunk =>
      let (outcome, after) := ReadableField.read a chunk
      (outcome, .inl after)
    | .inr b, chunk =>
      let (outcome, after) := ReadableField.read b chunk
      (outcome, .inr after)
  write
    | .inl a, chunk, bits =>
      let (outcome, after) := WritableField.write a chunk bits
      (outcome, .inl after)
    | .inr b, chunk, bits =>
      let (outcome, after) := WritableField.write b chunk bits
      (outcome, .inr after)

end Bitfield
